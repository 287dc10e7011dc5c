import NanoStore.Table.TimeSeries
/-!
# Time-series tables — runs of calls

What a time-series table is meant to answer: the points that were appended
and committed since, of two at one time the one appended later.

The table answers so as long as every bucket stays in memory and no scan
starts before time zero (`queries_of_run`). A bucket that was evicted, and
every bucket after a reopening, is not found (`queries_of_run_fails`).
-/

namespace NanoStore.Table

open Txn Steps List SortedMap

/-! ## Points -/

/-- A call to the table. A commit position is a `u64`. -/
inductive TimeSeriesCall
  | appendPoint (now : ℕ) (seriesKey : Bytes) (timestamp : ℤ) (valueKey : Bytes) (txId : TransactionId)
  | commitVersions (txId : TransactionId) (commitLsn : UInt64)
  | scanSeries (now : ℕ) (seriesKey : Bytes) (startTs endTs : ℤ)
  | latestBefore (seriesKey : Bytes) (timestamp : ℤ)
  | flushMetadata
  | reopen

/-- What a call returns. -/
inductive TimeSeriesAnswer
  | done
  | points (found : List (ℤ × Bytes))
  | latest (found : Option TimePointRef)

/-- A point that was appended. -/
structure AppendedPoint where
  seriesKey : Bytes
  timestamp : ℤ
  valueKey : Bytes
  txId : TransactionId
  committed : Bool

namespace AppendedPoint

variable {points : List AppendedPoint} {key : Bytes} {ts : ℤ}

/-- The point is of this series and time. -/
def stands (key : Bytes) (ts : ℤ) (p : AppendedPoint) : Bool := p.seriesKey = key ∧ p.timestamp = ts

/-- The point after a commit of the transaction. -/
def commit (txId : TransactionId) (p : AppendedPoint) : AppendedPoint :=
  if p.txId = txId then { p with committed := true } else p

/-- The value committed for a series and a time. -/
def committedAt (points : List AppendedPoint) (key : Bytes) (ts : ℤ) : Option Bytes :=
  (points.find? fun p => p.stands key ts ∧ p.committed).map AppendedPoint.valueKey

/-- What a version of a chain and an appended point have in common. -/
def Alike (v : Version) (p : AppendedPoint) : Prop :=
  v.value = .inline p.valueKey ∧ v.createdBy = p.txId ∧ v.commitLsn.isSome = p.committed ∧
    ∀ lsn ∈ v.commitLsn, lsn ≤ u64Max

/-- **The snapshot that sees everything reads the newest committed point.** -/
theorem findVisibleInline_of_alike {chain : VersionChain}
    (h : List.Forall₂ Alike chain (points.filter (stands key ts))) :
    chain.findVisibleInline (.atLsn u64Max) = committedAt points key ts := by
  have hfind : ∀ {chain : VersionChain} {points : List AppendedPoint}, List.Forall₂ Alike chain points →
      chain.findVisibleInline (.atLsn u64Max) = (points.find? AppendedPoint.committed).map valueKey := by
    intro chain points halike
    induction halike with
    | nil => rfl
    | @cons v p chain points hv _ ih =>
      obtain ⟨hval, -, hcomm, hle⟩ := hv
      cases hlsn : v.commitLsn with
      | none =>
        rw [hlsn] at hcomm
        have hunseen : v.visible (.atLsn u64Max) = false := by rw [Version.visible, hlsn]
        rw [VersionChain.findVisibleInline_of_hidden hunseen, find?_cons_of_neg (by simp [← hcomm])]
        exact ih
      | some lsn =>
        rw [hlsn] at hcomm
        have hseen : v.visible (.atLsn u64Max) = true := by
          have hlsn' := hle lsn hlsn
          simp [Version.visible, hlsn, hlsn']
        rw [VersionChain.findVisibleInline_of_visible hseen, find?_cons_of_pos hcomm.symm, hval]
        rfl
  rw [hfind h, committedAt, find?_filter]

theorem forall₂_stamp {chain : VersionChain} {txId : TransactionId} {lsn : ℕ} (hlsn : lsn ≤ u64Max)
    (h : List.Forall₂ Alike chain (points.filter (stands key ts))) :
    List.Forall₂ Alike (chain.stamp txId lsn) ((points.map (commit txId)).filter (stands key ts)) := by
  have hsame : stands key ts ∘ commit txId = stands key ts := by
    funext p
    simp only [Function.comp, commit]
    split <;> rfl
  rw [filter_map, hsame, VersionChain.stamp, forall₂_map_left_iff, forall₂_map_right_iff]
  refine h.imp ?_
  rintro v p ⟨hval, htx, hcomm, hle⟩
  rw [commit]
  by_cases hown : v.createdBy = txId
  · rw [if_pos (htx.symm.trans hown)]
    by_cases hopen : v.commitLsn = none
    · rw [if_pos ⟨hown, hopen⟩]
      refine ⟨hval, htx, rfl, ?_⟩
      rintro lsn' ⟨⟩
      exact hlsn
    · rw [if_neg fun h => hopen h.2]
      exact ⟨hval, htx, Option.isSome_iff_ne_none.mpr hopen, hle⟩
  · rw [if_neg fun h => hown h.1, if_neg fun h => hown (htx.trans h)]
    exact ⟨hval, htx, hcomm, hle⟩

end AppendedPoint

/-! ## Bucket numbers -/

namespace BucketId

variable {a b : ℤ} {id bucketSize : ℕ}

theorem startTimestamp_nonneg : 0 ≤ startTimestamp id bucketSize := by
  unfold startTimestamp i64Max
  split <;> positivity

theorem fromTimestamp_mono (ha : 0 ≤ a) (hab : a ≤ b) : fromTimestamp a bucketSize ≤ fromTimestamp b bucketSize := by
  rw [fromTimestamp, fromTimestamp, if_pos ha, if_pos (ha.trans hab)]
  exact Nat.div_le_div_right (Int.toNat_le_toNat hab)

theorem fromTimestamp_startTimestamp (hsize : 0 < bucketSize) (hb : b ≤ i64Max) (hb₀ : 0 ≤ b)
    (hid : id ≤ fromTimestamp b bucketSize) :
    fromTimestamp (startTimestamp id bucketSize) bucketSize = id := by
  rw [fromTimestamp, if_pos hb₀] at hid
  have hle : id ≤ i64Max.toNat / bucketSize := hid.trans (Nat.div_le_div_right (Int.toNat_le_toNat hb))
  rw [startTimestamp, if_neg (by omega), fromTimestamp, if_pos (by positivity)]
  have hcast : ((id : ℤ) * (bucketSize : ℤ)).toNat = id * bucketSize := by norm_cast
  rw [hcast, Nat.mul_div_cancel _ hsize]

end BucketId

open BucketId

/-! ## The buckets of a series -/

/-- A bucket in memory under its number: nothing of it is rolled back, and its points are of its time. -/
structure TimeBucket.Placed (bucketSize id : ℕ) (bucket : TimeBucket) : Prop where
  start_nonneg : 0 ≤ bucket.startTs
  untombed : ∀ ts, bucket.tombstones.lookup ts = none
  inside : ∀ e ∈ bucket.points.entries, fromTimestamp e.1 bucketSize = id ∧ 0 ≤ e.1

namespace TimeBucket

variable {bucketSize id id' now lsn : ℕ} {bucket bucket' : TimeBucket} {ts : ℤ} {value : Bytes}
  {txId : TransactionId} {snapshot : Snapshot} {e : ℤ × VersionChain} {p : ℤ × Bytes}

theorem Placed.touch (h : Placed bucketSize id bucket) : Placed bucketSize id (bucket.touch now) :=
  { h with }

theorem Placed.commitVersions (h : Placed bucketSize id bucket) :
    Placed bucketSize id (bucket.commitVersions txId lsn) where
  start_nonneg := h.start_nonneg
  untombed ts := by
    rw [TimeBucket.commitVersions, lookup_mapValues, h.untombed, Option.map_none]
  inside e he := by
    obtain ⟨e', he', rfl⟩ := mem_map.mp he
    exact h.inside e' he'

theorem insert_eq_ok (h : bucket.insert ts value txId = .ok bucket') :
    bucket.startTs ≤ ts ∧ ts < bucket.endTs ∧
      bucket' = { bucket with
        points := bucket.points.insert ts (.new value txId :: (bucket.points.lookup ts).getD [])
        dirty := true } := by
  unfold insert at h
  split at h
  next hinside =>
    obtain rfl := Except.ok.inj h
    obtain ⟨hstart, hend⟩ := of_decide_eq_true hinside
    exact ⟨hstart, hend, rfl⟩
  next => cases h

theorem Placed.insert (h : Placed bucketSize (fromTimestamp ts bucketSize) bucket)
    (hok : bucket.insert ts value txId = .ok bucket') :
    Placed bucketSize (fromTimestamp ts bucketSize) bucket' := by
  obtain ⟨hstart, -, rfl⟩ := insert_eq_ok hok
  refine ⟨h.start_nonneg, h.untombed, ?_⟩
  intro e he
  rcases mem_insert he with rfl | he
  · exact ⟨rfl, h.start_nonneg.trans hstart⟩
  · exact h.inside e he

/-- A bucket with the range of its number, as a new one has it and every one that was made so before. -/
def Spans (bucketSize id : ℕ) (bucket : TimeBucket) : Prop :=
  bucket.startTs = startTimestamp id bucketSize ∧ bucket.endTs = endTimestamp id bucketSize

/-- **The bucket of a time has it**: the time is in its range, no time is in two ranges, and the bucket
takes the point, whether it is new or was found in memory or on its page. -/
structure Covers (bucketSize : ℕ) (ts : ℤ) : Prop where
  start_le : startTimestamp (fromTimestamp ts bucketSize) bucketSize ≤ ts
  lt_end : ts < endTimestamp (fromTimestamp ts bucketSize) bucketSize ∨
    endTimestamp (fromTimestamp ts bucketSize) bucketSize = i64Max
  disjoint : ∀ id id' u, startTimestamp id bucketSize ≤ u → u < endTimestamp id bucketSize →
    startTimestamp id' bucketSize ≤ u → u < endTimestamp id' bucketSize → id = id'
  insert : ∀ bucket, Spans bucketSize (fromTimestamp ts bucketSize) bucket →
    ∀ value txId, ∃ bucket', bucket.insert ts value txId = .ok bucket'

theorem asI64_le (n : ℕ) : asI64 n ≤ n := by
  unfold asI64
  split <;> omega

/-- A range with something in it ends where the next one starts, or before. -/
theorem endTimestamp_le (hlt : id < id') (hsome : startTimestamp id' bucketSize < i64Max) :
    endTimestamp id bucketSize ≤ startTimestamp id' bucketSize := by
  unfold startTimestamp at hsome ⊢
  split_ifs at hsome ⊢ with hlarge
  · omega
  · have hstep : ((id : ℤ) + 1) * bucketSize ≤ id' * bucketSize := by gcongr; omega
    have hsize := asI64_le bucketSize
    rw [endTimestamp, startTimestamp, if_neg (by omega)]
    exact (min_le_right _ _).trans (by linarith)

/-- **Exactly the times from zero on, but the last one, have a bucket that covers them**, if a bucket is
not longer than a half of all times. -/
theorem covers_iff (hsize : 0 < bucketSize) (hbits : bucketSize < 2 ^ 64) (ts : ℤ) :
    Covers bucketSize ts ↔ 0 ≤ ts ∧ ts < i64Max ∧ bucketSize < 2 ^ 63 := by
  constructor
  · rintro ⟨-, -, -, hins⟩
    obtain ⟨bucket, hok⟩ := hins (.new (fromTimestamp ts bucketSize) bucketSize 0) ⟨rfl, rfl⟩ [] 0
    obtain ⟨hstart, hend, -⟩ := insert_eq_ok hok
    have hnonneg : 0 ≤ startTimestamp (fromTimestamp ts bucketSize) bucketSize := startTimestamp_nonneg
    refine ⟨hnonneg.trans hstart, hend.trans_le (min_le_left _ _), ?_⟩
    by_contra hlong
    have hneg : asI64 bucketSize < 0 := by rw [asI64, if_neg hlong]; omega
    have hend' : ts < startTimestamp (fromTimestamp ts bucketSize) bucketSize + asI64 bucketSize :=
      hend.trans_le (min_le_right _ _)
    have hstart' : startTimestamp (fromTimestamp ts bucketSize) bucketSize ≤ ts := hstart
    omega
  · rintro ⟨hts, hmax, hlong⟩
    have hid : fromTimestamp ts bucketSize = ts.toNat / bucketSize := if_pos hts
    have hstart : startTimestamp (fromTimestamp ts bucketSize) bucketSize =
        (ts.toNat / bucketSize : ℕ) * bucketSize := by
      rw [hid, startTimestamp, if_neg (not_lt.mpr (Nat.div_le_div_right (Int.toNat_le_toNat hmax.le)))]
    have hle : startTimestamp (fromTimestamp ts bucketSize) bucketSize ≤ ts := by
      have := Nat.div_mul_le_self ts.toNat bucketSize
      rw [hstart]
      omega
    have hlt : ts < endTimestamp (fromTimestamp ts bucketSize) bucketSize := by
      have hnext := Nat.lt_div_mul_add hsize (a := ts.toNat)
      rw [endTimestamp, hstart, asI64, if_pos hlong]
      exact lt_min hmax (by omega)
    refine ⟨hle, .inl hlt, fun id id' u h₁ h₂ h₁' h₂' => ?_, fun bucket hspans value txId => ⟨_, if_pos ?_⟩⟩
    · rcases lt_trichotomy id id' with hlt | heq | hlt
      · have := endTimestamp_le hlt ((h₁'.trans_lt h₂').trans_le (min_le_left _ _))
        omega
      · exact heq
      · have := endTimestamp_le hlt ((h₁.trans_lt h₂).trans_le (min_le_left _ _))
        omega
    · rw [← hspans.1] at hle
      rw [← hspans.2] at hlt
      exact decide_eq_true ⟨hle, hlt⟩

theorem covers_iff_second : Covers 10 15 := (covers_iff (by decide) (by decide) 15).mpr (by decide)

/-- The bucket of a time before zero starts at the end of all times, and does not take the point. -/
theorem negative_not_covered : ¬ Covers 10 (-1) ∧ startTimestamp (fromTimestamp (-1) 10) 10 = i64Max := by
  refine ⟨fun h => ?_, by decide⟩
  exact absurd h.start_le (by decide)

/-- What a snapshot sees of an entry of a bucket without tombstones. -/
def shown (snapshot : Snapshot) (e : ℤ × VersionChain) : Option (ℤ × Bytes) :=
  (e.2.findVisibleInline snapshot).map fun value => (e.1, value)

theorem Placed.seen_eq (h : Placed bucketSize id bucket) : bucket.seen snapshot = shown snapshot := by
  funext e
  have hkept : bucket.isTombstoned e.1 snapshot = false := by rw [isTombstoned, h.untombed]
  rw [seen, hkept, if_neg Bool.false_ne_true, shown]

theorem shown_eq_some : shown snapshot e = some p ↔ p.1 = e.1 ∧ e.2.findVisibleInline snapshot = some p.2 := by
  rw [shown, Option.map_eq_some_iff]
  constructor
  · rintro ⟨value, hval, rfl⟩
    exact ⟨rfl, hval⟩
  · rintro ⟨hts, hval⟩
    exact ⟨p.2, hval, Prod.ext hts.symm rfl⟩

end TimeBucket

open TimeBucket

/-- A series all of whose buckets are in memory. -/
structure BucketManager.Kept (bucketSize : ℕ) (manager : BucketManager) : Prop where
  unpaged : ∀ id, manager.bucketPageMap.lookup id = none
  placed : ∀ e ∈ manager.buckets.entries, e.2.Placed bucketSize e.1

namespace BucketManager

variable {bucketSize id now lsn : ℕ} {manager manager' : BucketManager} {ts : ℤ} {bucket : TimeBucket}

def chain (bucketSize : ℕ) (manager : BucketManager) (ts : ℤ) : VersionChain :=
  ((manager.buckets.lookup (fromTimestamp ts bucketSize)).bind fun bucket =>
    bucket.points.lookup ts).getD []

/-- The manager after calls that brought buckets into memory: the chains are what they were. -/
structure Grown (bucketSize : ℕ) (manager manager' : BucketManager) : Prop where
  kept : manager'.Kept bucketSize
  held : ∀ id, (manager.buckets.lookup id).isSome → (manager'.buckets.lookup id).isSome
  chain_eq : ∀ ts, manager'.chain bucketSize ts = manager.chain bucketSize ts

theorem kept_new : Kept bucketSize .new := ⟨fun _ => rfl, by simp [new, empty]⟩

theorem Kept.insert (h : manager.Kept bucketSize) (hbucket : bucket.Placed bucketSize id) :
    Kept bucketSize { manager with buckets := manager.buckets.insert id bucket } := by
  refine ⟨h.unpaged, ?_⟩
  intro e he
  rcases mem_insert he with rfl | he
  · exact hbucket
  · exact h.placed e he

theorem chain_insert : chain bucketSize { manager with buckets := manager.buckets.insert id bucket } ts =
      if fromTimestamp ts bucketSize = id then (bucket.points.lookup ts).getD []
      else manager.chain bucketSize ts := by
  rw [chain, lookup_insert]
  split_ifs <;> rfl

theorem Kept.grown_insert (h : manager.Kept bucketSize) (hbucket : bucket.Placed bucketSize id)
    (hsame : ∀ ts, bucket.points.lookup ts = (manager.buckets.lookup id).bind fun b => b.points.lookup ts) :
    Grown bucketSize manager { manager with buckets := manager.buckets.insert id bucket } where
  kept := h.insert hbucket
  held id' hid' := by
    rw [lookup_insert]
    split_ifs
    · rfl
    · exact hid'
  chain_eq ts := by
    rw [chain_insert]
    split_ifs with hid
    · rw [chain, hid, hsame]
    · rfl

/-- **With room in memory, the bucket of a time is there or is new**, and nothing else changes. -/
theorem Kept.getOrCreateBucket (h : manager.Kept bucketSize) (env : TimeSeriesEnv) (store : BucketPages)
    (hroom : (manager.buckets.lookup (fromTimestamp ts bucketSize)).isSome ∨
      manager.buckets.entries.length < maxBucketsInMemory) :
    ∃ manager' bucket, BucketManager.getOrCreateBucket env bucketSize now ts (manager, store) =
        ((manager', store), .ok bucket) ∧
      manager'.buckets.lookup (fromTimestamp ts bucketSize) = some bucket ∧
      Grown bucketSize manager manager' := by
  cases hlook : manager.buckets.lookup (fromTimestamp ts bucketSize) with
  | some bucket =>
    simp only [BucketManager.getOrCreateBucket, hlook]
    refine ⟨_, _, rfl, ?_, ?_⟩
    · rw [lookup_insert, if_pos rfl]
    · refine h.grown_insert (h.placed _ (lookup_eq_some.mp hlook)).touch fun ts' => ?_
      rw [hlook]
      rfl
  | none =>
    have hfew : ¬ maxBucketsInMemory ≤ manager.buckets.entries.length := by
      rcases hroom with hheld | hfew
      · rw [hlook] at hheld
        cases hheld
      · exact not_le.mpr hfew
    have hnone := h.unpaged (fromTimestamp ts bucketSize)
    simp only [BucketManager.getOrCreateBucket, hlook, if_neg hfew, andThen_ok, loadOrNew, hnone]
    refine ⟨_, _, rfl, ?_, ?_⟩
    · rw [lookup_insert, if_pos rfl]
    · refine h.grown_insert ⟨startTimestamp_nonneg, fun _ => rfl, by simp [TimeBucket.new, empty]⟩ fun ts' => ?_
      rw [hlook]
      rfl

/-! ## Queries -/

variable {a b : ℤ} {snapshot : Snapshot} {p : ℤ × Bytes}

/-- The points in memory, bucket after bucket. -/
def points (manager : BucketManager) : List (ℤ × VersionChain) :=
  manager.buckets.entries.flatMap fun e => e.2.points.entries

theorem Kept.points_ascend (h : manager.Kept bucketSize) : manager.points.Pairwise fun x x' => x.1 < x'.1 := by
  refine pairwise_flatMap.mpr ⟨fun e _ => e.2.points.ascends, ?_⟩
  refine List.Pairwise.imp_of_mem ?_ manager.buckets.ascends
  intro e e' he he' hlt x hx x' hx'
  obtain ⟨hid, -⟩ := (h.placed e he).inside x hx
  obtain ⟨hid', hnonneg⟩ := (h.placed e' he').inside x' hx'
  by_contra hle
  have hmono : fromTimestamp x'.1 bucketSize ≤ fromTimestamp x.1 bucketSize :=
    fromTimestamp_mono hnonneg (not_lt.mp hle)
  omega

/-- The chains show what some point in memory shows. -/
theorem Kept.findVisibleInline_chain (h : manager.Kept bucketSize) :
    (manager.chain bucketSize p.1).findVisibleInline snapshot = some p.2 ↔
      ∃ x ∈ manager.points, shown snapshot x = some p := by
  simp only [points, mem_flatMap, shown_eq_some]
  constructor
  · rw [chain]
    intro hvis
    cases hbucket : manager.buckets.lookup (fromTimestamp p.1 bucketSize) with
    | none =>
      rw [hbucket] at hvis
      cases hvis
    | some bucket =>
      rw [hbucket, Option.bind_some] at hvis
      cases hvers : bucket.points.lookup p.1 with
      | none =>
        rw [hvers] at hvis
        cases hvis
      | some versions =>
        rw [hvers] at hvis
        exact ⟨_, ⟨_, lookup_eq_some.mp hbucket, lookup_eq_some.mp hvers⟩, rfl, hvis⟩
  · rintro ⟨x, ⟨e, he, hx⟩, hts, hvis⟩
    have hbucket : manager.buckets.lookup e.1 = some e.2 := lookup_eq_some.mpr he
    have hvers : e.2.points.lookup x.1 = some x.2 := lookup_eq_some.mpr hx
    rwa [hts, chain, ((h.placed e he).inside x hx).1, hbucket, Option.bind_some, hvers, Option.getD_some]

/-- What a snapshot sees of the points of some times. -/
def visible (manager : BucketManager) (snapshot : Snapshot) (r : ℤ → Bool) : List (ℤ × Bytes) :=
  (manager.points.filter fun x => r x.1).filterMap (shown snapshot)

section

variable (h : manager.Kept bucketSize)
include h

theorem Kept.visible_ascends (snapshot : Snapshot) (r : ℤ → Bool) :
    (manager.visible snapshot r).Pairwise fun p q => p.1 < q.1 := by
  refine pairwise_filterMap.mpr ((h.points_ascend.filter _).imp ?_)
  intro x x' hlt p hp p' hp'
  rwa [(shown_eq_some.mp hp).1, (shown_eq_some.mp hp').1]

theorem Kept.mem_visible {r : ℤ → Bool} : p ∈ manager.visible snapshot r ↔
    r p.1 = true ∧ (manager.chain bucketSize p.1).findVisibleInline snapshot = some p.2 := by
  rw [visible, mem_filterMap, h.findVisibleInline_chain]
  constructor
  · rintro ⟨x, hx, hshown⟩
    obtain ⟨hmem, hr⟩ := mem_filter.mp hx
    exact ⟨(shown_eq_some.mp hshown).1 ▸ hr, x, hmem, hshown⟩
  · rintro ⟨hr, x, hmem, hshown⟩
    exact ⟨x, mem_filter.mpr ⟨hmem, (shown_eq_some.mp hshown).1 ▸ hr⟩, hshown⟩

/-- **The buckets that can hold the times asked for show all of them.** -/
theorem Kept.flatMap_seen (snapshot : Snapshot) {q : ℕ → Bool} {r : ℤ → Bool}
    (hr : ∀ ts, 0 ≤ ts → r ts = true → q (fromTimestamp ts bucketSize) = true) :
    ((manager.buckets.entries.filter fun e => q e.1).flatMap fun e =>
      (e.2.points.entries.filter fun x => r x.1).filterMap (e.2.seen snapshot)) = manager.visible snapshot r := by
  rw [visible, points, filter_flatMap, filterMap_flatMap]
  have hplaced := h.placed
  revert hplaced
  induction manager.buckets.entries with
  | nil => exact fun _ => rfl
  | cons e entries ih =>
    intro hplaced
    obtain ⟨he, hrest⟩ := forall_mem_cons.mp hplaced
    rw [flatMap_cons, ← ih hrest, filter_cons, ← he.seen_eq]
    split_ifs with hq
    · rw [flatMap_cons]
    · have hnone : (e.2.points.entries.filter fun x => r x.1) = [] := by
        refine filter_eq_nil_iff.mpr fun x hx hrx => hq ?_
        rw [← (he.inside x hx).1]
        exact hr x.1 (he.inside x hx).2 hrx
      rw [hnone, filterMap_nil, nil_append]

end

theorem filterMap_lookup (q : ℕ → Bool) :
    ((manager.buckets.entries.map Prod.fst).filter q).filterMap manager.buckets.lookup =
      (manager.buckets.entries.filter (q ∘ Prod.fst)).map Prod.snd := by
  rw [filter_map, filterMap_map, ← filterMap_eq_map]
  refine filterMap_congr fun e he => ?_
  exact lookup_eq_some.mpr (mem_filter.mp he).1

theorem getBucketIdsInRange_of_le (hsize : 0 < bucketSize) (ha : 0 ≤ a) (hab : a ≤ b) :
    manager.getBucketIdsInRange bucketSize a b = some ((manager.buckets.entries.map Prod.fst).filter fun id =>
      fromTimestamp a bucketSize ≤ id ∧ id ≤ fromTimestamp b bucketSize) :=
  if_neg fun hpanics => hpanics.elim hsize.ne' fun hinverted =>
    absurd (lt_of_rangePanics hinverted) (not_lt.mpr (fromTimestamp_mono ha hab))

/-- **A scan of a series in memory** finds what its chains show in the range, in the order of time. -/
theorem Kept.collect (table : TimeSeriesTable) (snapshot : Snapshot)
    (h : manager.Kept table.bucketSize) (hsize : 0 < table.bucketSize) (ha : 0 ≤ a) (hab : a ≤ b) :
    ∃ found, table.collect manager a b snapshot = some found ∧ (found.Pairwise fun p q => p.1 < q.1) ∧
      ∀ p : ℤ × Bytes, p ∈ found ↔ a ≤ p.1 ∧ p.1 < b ∧
        (manager.chain table.bucketSize p.1).findVisibleInline snapshot = some p.2 := by
  have hasc := h.visible_ascends snapshot fun ts => a ≤ ts ∧ ts < b
  refine ⟨_, ?_, hasc, fun p => ?_⟩
  · have hrange : (fun bucket : TimeBucket => bucket.range a b snapshot) = fun bucket => pure
        ((bucket.points.entries.filter fun e => a ≤ e.1 ∧ e.1 < b).filterMap (bucket.seen snapshot)) :=
      funext fun bucket => if_neg fun hpanics => absurd (lt_of_rangePanics hpanics) (not_lt.mpr hab)
    rw [TimeSeriesTable.collect, getBucketIdsInRange_of_le hsize ha hab, hrange, Option.bind_eq_bind,
      Option.bind_some, filterMap_lookup, mapM_pure]
    refine congrArg some ?_
    have hseen := h.flatMap_seen snapshot (r := fun ts => a ≤ ts ∧ ts < b)
      (q := fun id => fromTimestamp a table.bucketSize ≤ id ∧ id ≤ fromTimestamp b table.bucketSize)
      fun ts hts hwindow => decide_eq_true ⟨fromTimestamp_mono ha (of_decide_eq_true hwindow).1,
        fromTimestamp_mono hts (of_decide_eq_true hwindow).2.le⟩
    rw [← hseen] at hasc ⊢
    rw [map_map, ← flatMap_def]
    exact mergeSort_of_pairwise (hasc.imp fun hlt => decide_eq_true hlt.le)
  · rw [h.mem_visible, decide_eq_true_iff, and_assoc]

/-- **The backward search through the buckets in memory** finds the latest visible time. -/
theorem Kept.latest (h : manager.Kept bucketSize) :
    ((manager.buckets.entries.filter fun e => e.1 ≤ fromTimestamp ts bucketSize).reverse.findSome?
        fun e => e.2.latestBefore ts snapshot) = some p ↔
      p.1 ≤ ts ∧ (manager.chain bucketSize p.1).findVisibleInline snapshot = some p.2 ∧
        ∀ ts', p.1 < ts' → ts' ≤ ts → (manager.chain bucketSize ts').findVisibleInline snapshot = none := by
  have hseen := h.flatMap_seen snapshot (r := fun ts' => ts' ≤ ts)
    (q := fun id => id ≤ fromTimestamp ts bucketSize)
    fun ts' hts' hle => decide_eq_true (fromTimestamp_mono hts' (of_decide_eq_true hle))
  have hlast : ∀ bucket : TimeBucket, bucket.latestBefore ts snapshot =
      ((bucket.points.entries.filter fun e => e.1 ≤ ts).filterMap (bucket.seen snapshot)).reverse.head? :=
    fun bucket => by rw [latestBefore, ← head?_filterMap, filterMap_reverse]
  simp only [hlast, ← head?_flatMap]
  rw [← Function.comp_def reverse, ← reverse_flatMap, hseen, head?_reverse,
    SortedMap.getLast?_eq_some (h.visible_ascends snapshot _), h.mem_visible, decide_eq_true_iff, and_assoc]
  refine and_congr_right fun _ => and_congr_right fun _ => ⟨fun hlast ts' hlt hle => ?_, fun hlast p' hp' hlt => ?_⟩
  · by_contra hsome
    obtain ⟨value, hval⟩ := Option.ne_none_iff_exists'.mp hsome
    exact hlast (ts', value) (h.mem_visible.mpr ⟨decide_eq_true hle, hval⟩) hlt
  · obtain ⟨hle, hvis⟩ := h.mem_visible.mp hp'
    rw [hlast p'.1 hlt (of_decide_eq_true hle)] at hvis
    cases hvis

theorem chain_commitVersions {txId : TransactionId} : chain bucketSize
    { manager with buckets := manager.buckets.mapValues fun bucket => bucket.commitVersions txId lsn } ts =
      (manager.chain bucketSize ts).stamp txId lsn := by
  rw [chain, lookup_mapValues, chain]
  cases manager.buckets.lookup (fromTimestamp ts bucketSize) with
  | none => rfl
  | some bucket =>
    rw [Option.map_some, Option.bind_some, Option.bind_some, commitVersions, lookup_mapValues]
    cases bucket.points.lookup ts <;> rfl

theorem Kept.commitVersions {txId : TransactionId} (h : manager.Kept bucketSize) : Kept bucketSize
    { manager with buckets := manager.buckets.mapValues fun bucket => bucket.commitVersions txId lsn } := by
  refine ⟨h.unpaged, fun e he => ?_⟩
  obtain ⟨e', he', rfl⟩ := mem_map.mp he
  exact (h.placed e' he').commitVersions

end BucketManager

open BucketManager

/-! ## Runs -/

namespace TimeSeriesTable

open AppendedPoint

/-- One call of the table. -/
def exec (env : TimeSeriesEnv) (table : TimeSeriesTable) :
    TimeSeriesCall → TimeSeriesTable × Except (Failure TimeSeriesError) TimeSeriesAnswer
  | .appendPoint now seriesKey timestamp valueKey txId =>
    let (table, answer) := table.appendPointTx env now seriesKey timestamp valueKey txId
    (table, answer.map fun _ => .done)
  | .commitVersions txId commitLsn =>
    let (table, answer) := table.commitVersions txId commitLsn.toNat
    (table, answer.map fun _ => .done)
  | .scanSeries now seriesKey startTs endTs =>
    let (table, answer) := table.scanSeries env now seriesKey startTs endTs
    (table, answer.map .points)
  | .latestBefore seriesKey timestamp => (table, (table.latestBefore seriesKey timestamp).map .latest)
  | .flushMetadata =>
    let (table, answer) := table.flushMetadata env
    (table, answer.map fun _ => .done)
  | .reopen => (table.reopen, .ok .done)

/-- The points appended in a run, latest first, and which of them are committed. -/
def appended : List (TimeSeriesCall × Except (Failure TimeSeriesError) TimeSeriesAnswer) → List AppendedPoint
  | [] => []
  | (.appendPoint _ seriesKey timestamp valueKey txId, .ok _) :: trace =>
    ⟨seriesKey, timestamp, valueKey, txId, false⟩ :: appended trace
  | (.commitVersions txId _, .ok _) :: trace => (appended trace).map (commit txId)
  | _ :: trace => appended trace

/-- A scan answered with exactly the committed points of the range, in the order of time. -/
def ScanRight (points : List AppendedPoint) (key : Bytes) (a b : ℤ)
    (answer : Except (Failure TimeSeriesError) (List (ℤ × Bytes))) : Prop :=
  ∃ found, answer = .ok found ∧ (found.Pairwise fun p q => p.1 < q.1) ∧
    ∀ p : ℤ × Bytes, p ∈ found ↔ a ≤ p.1 ∧ p.1 < b ∧ committedAt points key p.1 = some p.2

/-- The latest committed point at or before a time, or none if there is none. -/
def LatestRight (points : List AppendedPoint) (key : Bytes) (t : ℤ)
    (answer : Except (Failure TimeSeriesError) (Option TimePointRef)) : Prop :=
  ∃ found, answer = .ok found ∧ ∀ p : TimePointRef, found = some p ↔
    p.seriesKey = key ∧ p.timestamp ≤ t ∧ committedAt points key p.timestamp = some p.valueKey ∧
      ∀ ts, p.timestamp < ts → ts ≤ t → committedAt points key ts = none

/-- The manager an append works on. -/
def managerOf (table : TimeSeriesTable) (key : Bytes) : BucketManager := (table.series.lookup key).getD .new

/-- The call evicts no bucket, scans from time zero on, and does not reopen a table with points. -/
def Calm (_ : List (TimeSeriesCall × Except (Failure TimeSeriesError) TimeSeriesAnswer))
    (table : TimeSeriesTable) : TimeSeriesCall → Prop
  | .appendPoint _ key ts _ _ =>
    0 < table.bucketSize ∧
      (((table.managerOf key).buckets.lookup (fromTimestamp ts table.bucketSize)).isSome ∨
        (table.managerOf key).buckets.entries.length < maxBucketsInMemory)
  | .scanSeries _ _ a b => 0 ≤ a ∧ a ≤ b ∧ b ≤ i64Max
  | .reopen => table.series.entries.length = 0
  | _ => True

instance (trace : List (TimeSeriesCall × Except (Failure TimeSeriesError) TimeSeriesAnswer))
    (table : TimeSeriesTable) (call : TimeSeriesCall) : Decidable (Calm trace table call) :=
  match call with
  | .appendPoint .. => inferInstanceAs (Decidable (_ ∧ _))
  | .scanSeries .. => inferInstanceAs (Decidable (_ ∧ _))
  | .reopen => inferInstanceAs (Decidable (_ = _))
  | .commitVersions .. => inferInstanceAs (Decidable True)
  | .latestBefore .. => inferInstanceAs (Decidable True)
  | .flushMetadata => inferInstanceAs (Decidable True)

def chain (table : TimeSeriesTable) (key : Bytes) (ts : ℤ) : VersionChain :=
  (table.managerOf key).chain table.bucketSize ts

/-- **The table holds the points that were appended**, all of them in memory. -/
structure Mirrors (points : List AppendedPoint) (table : TimeSeriesTable) : Prop where
  sound : table.poisoned = false
  sized : ∀ key manager, table.series.lookup key = some manager → 0 < table.bucketSize
  kept : ∀ key, (table.managerOf key).Kept table.bucketSize
  rooted : ∀ entry ∈ table.root, (table.series.lookup entry.seriesKey).isSome
  alike : ∀ key ts, List.Forall₂ Alike (table.chain key ts) (points.filter (stands key ts))

variable {env : TimeSeriesEnv} {points points' : List AppendedPoint} {table : TimeSeriesTable}
  {key : Bytes} {manager : BucketManager} {store : BucketPages} {ts a b : ℤ} {now lsn : ℕ}
  {txId : TransactionId}

theorem Mirrors.unpoisoned (h : Mirrors points table) : ¬ table.poisoned = true := by
  rw [h.sound]
  exact Bool.false_ne_true

theorem mirrors_new (size : ℕ) : Mirrors [] (new size) where
  sound := rfl
  sized _ _ h := by cases h
  kept _ := kept_new
  rooted _ h := by cases h
  alike _ _ := .nil

def withManager (table : TimeSeriesTable) (key : Bytes) (manager : BucketManager) (store : BucketPages) :
    TimeSeriesTable :=
  { table with series := table.series.insert key manager, store := store }

theorem managerOf_withManager (key' : Bytes) :
    (table.withManager key manager store).managerOf key' = if key' = key then manager else table.managerOf key' := by
  rw [managerOf, withManager, lookup_insert]
  split_ifs <;> rfl

theorem Mirrors.replace (h : Mirrors points table) (hsize : 0 < table.bucketSize)
    (hkept : manager.Kept table.bucketSize)
    (halike : ∀ ts, List.Forall₂ Alike (manager.chain table.bucketSize ts) (points'.filter (stands key ts)))
    (hother : ∀ key' ts, key' ≠ key → points'.filter (stands key' ts) = points.filter (stands key' ts)) :
    Mirrors points' (table.withManager key manager store) where
  sound := h.sound
  sized _ _ _ := hsize
  kept key' := by
    rw [managerOf_withManager]
    split_ifs
    · exact hkept
    · exact h.kept key'
  rooted entry hent := by
    rw [withManager, lookup_insert]
    split_ifs
    · rfl
    · exact h.rooted entry hent
  alike key' ts := by
    rw [chain, managerOf_withManager]
    split_ifs with hkey
    · rw [hkey]
      exact halike ts
    · rw [hother key' ts hkey]
      exact h.alike key' ts

theorem Mirrors.grow (h : Mirrors points table) (hsize : 0 < table.bucketSize)
    (hgrown : BucketManager.Grown table.bucketSize (table.managerOf key) manager) :
    Mirrors points (table.withManager key manager store) := by
  refine h.replace hsize hgrown.kept (fun ts => ?_) fun _ _ _ => rfl
  rw [hgrown.chain_eq]
  exact h.alike key ts

theorem chain_insert_point {bucket bucket' : TimeBucket} {value : Bytes} {size : ℕ}
    (hbucket : manager.buckets.lookup (fromTimestamp ts size) = some bucket)
    (hok : bucket.insert ts value txId = .ok bucket') (ts' : ℤ) : BucketManager.chain size
        { manager with buckets := manager.buckets.insert (fromTimestamp ts size) bucket' } ts' =
      if ts' = ts then .new value txId :: manager.chain size ts else manager.chain size ts' := by
  obtain ⟨-, -, rfl⟩ := insert_eq_ok hok
  have hchain : ∀ ts', fromTimestamp ts' size = fromTimestamp ts size →
      manager.chain size ts' = (bucket.points.lookup ts').getD [] := by
    intro ts' hid
    rw [BucketManager.chain, hid, hbucket, Option.bind_some]
  rw [chain_insert, lookup_insert]
  by_cases hts : ts' = ts
  · rw [hts, if_pos rfl, if_pos rfl, if_pos rfl, hchain ts rfl, Option.getD_some]
  · rw [if_neg hts, if_neg hts]
    split_ifs with hid
    · rw [hchain ts' hid]
    · rfl

/-- **A point that is appended**, or refused. -/
theorem Mirrors.append (value : Bytes)
    (h : Mirrors points table) (hsize : 0 < table.bucketSize)
    (hroom : ((table.managerOf key).buckets.lookup (fromTimestamp ts table.bucketSize)).isSome ∨
      (table.managerOf key).buckets.entries.length < maxBucketsInMemory) :
    ((table.appendPointTx env now key ts value txId).2 = .ok () ∧
        Mirrors (⟨key, ts, value, txId, false⟩ :: points) (table.appendPointTx env now key ts value txId).1) ∨
      ∃ e, (table.appendPointTx env now key ts value txId).2 = .error e ∧
        Mirrors points (table.appendPointTx env now key ts value txId).1 := by
  obtain ⟨manager, bucket, heq, hbucket, hgrown⟩ := (h.kept key).getOrCreateBucket env table.store hroom
  rw [appendPointTx, if_neg h.unpoisoned, appendLocked]
  simp only [if_neg hsize.ne']
  rw [← managerOf, heq]
  dsimp only
  cases hins : bucket.insert ts value txId with
  | error e => exact .inr ⟨_, rfl, h.grow hsize hgrown⟩
  | ok bucket' =>
    refine .inl ⟨rfl, ?_⟩
    have hplaced := hgrown.kept.placed _ (lookup_eq_some.mp hbucket)
    refine h.replace hsize (hgrown.kept.insert (hplaced.insert hins)) (fun ts' => ?_) fun key' ts' hkey => ?_
    · rw [chain_insert_point hbucket hins, filter_cons, hgrown.chain_eq, hgrown.chain_eq]
      have halike := h.alike key ts'
      by_cases hts : ts' = ts
      · subst hts
        rw [if_pos rfl, if_pos (by simp [stands])]
        refine .cons ⟨rfl, rfl, rfl, ?_⟩ halike
        intro lsn hlsn
        cases hlsn
      · rw [if_neg hts, if_neg (by simpa [stands] using Ne.symm hts)]
        exact halike
    · rw [filter_cons, if_neg (by simpa [stands] using fun hsame => absurd hsame.symm hkey)]

/-- **A commit** stamps the chains as it marks the points. -/
theorem Mirrors.commitVersions (h : Mirrors points table) (hlsn : lsn ≤ u64Max) :
    (table.commitVersions txId lsn).2 = .ok () ∧
      Mirrors (points.map (commit txId)) (table.commitVersions txId lsn).1 := by
  rw [TimeSeriesTable.commitVersions, if_neg h.unpoisoned]
  have hmanager : ∀ key, managerOf
      { table with
        series := table.series.mapValues fun manager =>
          { manager with buckets := manager.buckets.mapValues fun bucket => bucket.commitVersions txId lsn } } key =
      { table.managerOf key with
        buckets := (table.managerOf key).buckets.mapValues fun bucket => bucket.commitVersions txId lsn } := by
    intro key
    rw [managerOf, lookup_mapValues, managerOf]
    cases table.series.lookup key <;> rfl
  refine ⟨rfl, ⟨h.sound, fun key manager hlook => ?_, fun key => ?_, fun entry hent => ?_, fun key ts => ?_⟩⟩
  · rw [lookup_mapValues, Option.map_eq_some_iff] at hlook
    obtain ⟨manager', hlook', -⟩ := hlook
    exact h.sized key manager' hlook'
  · rw [hmanager]
    exact (h.kept key).commitVersions
  · rw [lookup_mapValues, Option.isSome_map]
    exact h.rooted entry hent
  · rw [chain, hmanager, chain_commitVersions]
    exact forall₂_stamp hlsn (h.alike key ts)

theorem grown_loadBuckets (env : TimeSeriesEnv) (now : ℕ) (store : BucketPages) {ids : List ℕ}
    (hkept : manager.Kept table.bucketSize)
    (hids : ∀ id ∈ ids, (manager.buckets.lookup id).isSome ∧
      fromTimestamp (startTimestamp id table.bucketSize) table.bucketSize = id) :
    ∃ manager', table.loadBuckets env now (manager, store) ids = (manager', store) ∧
      BucketManager.Grown table.bucketSize manager manager' := by
  induction ids generalizing manager with
  | nil => exact ⟨manager, rfl, hkept, fun _ => id, fun _ => rfl⟩
  | cons id ids ih =>
    obtain ⟨⟨hheld, hstart⟩, hrest⟩ := forall_mem_cons.mp hids
    obtain ⟨manager₁, bucket, heq, -, hgrown⟩ := hkept.getOrCreateBucket env store
      (.inl (by rwa [hstart]))
    obtain ⟨manager₂, hloaded, hgrown'⟩ := ih hgrown.kept fun id' hid' =>
      ⟨hgrown.held id' (hrest id' hid').1, (hrest id' hid').2⟩
    refine ⟨manager₂, ?_, hgrown'.kept, fun id' hid' => hgrown'.held id' (hgrown.held id' hid'), fun ts => ?_⟩
    · rw [← hloaded, loadBuckets, foldl_cons, heq]
      rfl
    · rw [hgrown'.chain_eq, hgrown.chain_eq]

section

variable (h : Mirrors points table)
include h

theorem Mirrors.committedAt_eq (key : Bytes) (ts : ℤ) : committedAt points key ts =
    ((table.managerOf key).chain table.bucketSize ts).findVisibleInline (.atLsn u64Max) :=
  (findVisibleInline_of_alike (h.alike key ts)).symm

theorem Mirrors.committedAt_of_none (hlook : table.series.lookup key = none) (ts : ℤ) :
    committedAt points key ts = none := by
  rw [h.committedAt_eq, managerOf, hlook]
  rfl

/-- **A scan from time zero on** answers with the committed points, and changes no chain. -/
theorem Mirrors.scanSeries (ha : 0 ≤ a) (hab : a ≤ b) (hb : b ≤ i64Max) :
    Mirrors points (table.scanSeries env now key a b).1 ∧
      ScanRight points key a b (table.scanSeries env now key a b).2 := by
  rw [TimeSeriesTable.scanSeries, scanSeriesSnapshot, if_neg h.unpoisoned]
  cases hlook : table.series.lookup key with
  | none => exact ⟨h, [], rfl, .nil, fun p => by simp [h.committedAt_of_none hlook]⟩
  | some manager =>
    have hmanager : table.managerOf key = manager := by rw [managerOf, hlook, Option.getD_some]
    have hkept : manager.Kept table.bucketSize := hmanager ▸ h.kept key
    have hsize := h.sized key manager hlook
    have hheld : ∀ id ∈ (manager.buckets.entries.map Prod.fst).filter fun id =>
          fromTimestamp a table.bucketSize ≤ id ∧ id ≤ fromTimestamp b table.bucketSize,
        (manager.buckets.lookup id).isSome ∧
          fromTimestamp (startTimestamp id table.bucketSize) table.bucketSize = id := by
      intro id hid
      obtain ⟨hmem, hrange⟩ := mem_filter.mp hid
      obtain ⟨e, he, rfl⟩ := mem_map.mp hmem
      refine ⟨Option.isSome_iff_exists.mpr ⟨e.2, lookup_eq_some.mpr he⟩, ?_⟩
      exact fromTimestamp_startTimestamp hsize hb (ha.trans hab) (of_decide_eq_true hrange).2
    obtain ⟨manager', hloaded, hgrown⟩ := grown_loadBuckets env now table.store hkept hheld
    obtain ⟨found, hcollect, hasc, hfound⟩ := BucketManager.Kept.collect
      (table.withManager key manager' table.store) (.atLsn u64Max) hgrown.kept hsize ha hab
    have hmirrors : Mirrors points (table.withManager key manager' table.store) :=
      h.grow hsize (hmanager ▸ hgrown)
    simp only [getBucketIdsInRange_of_le hsize ha hab, hloaded]
    rw [← withManager, hcollect]
    refine ⟨hmirrors, found, rfl, hasc, fun p => ?_⟩
    rw [hfound, h.committedAt_eq, hmanager, ← hgrown.chain_eq]
    rfl

/-- **The latest point** at or before a time. -/
theorem Mirrors.latestBefore (key : Bytes) (t : ℤ) :
    LatestRight points key t (table.latestBefore key t) := by
  rw [LatestRight, TimeSeriesTable.latestBefore, latestBeforeSnapshot, if_neg h.unpoisoned]
  cases hlook : table.series.lookup key with
  | none => exact ⟨none, rfl, fun p => by simp [h.committedAt_of_none hlook]⟩
  | some manager =>
    have hmanager : table.managerOf key = manager := by rw [managerOf, hlook, Option.getD_some]
    simp only [h.committedAt_eq, hmanager, if_neg (h.sized key manager hlook).ne']
    refine ⟨_, rfl, fun p => ?_⟩
    rw [Option.map_eq_some_iff]
    simp only [(hmanager ▸ h.kept key : manager.Kept table.bucketSize).latest]
    constructor
    · rintro ⟨point, hlatest, rfl⟩
      exact ⟨rfl, hlatest⟩
    · rintro ⟨hkey, hlatest⟩
      exact ⟨(p.timestamp, p.valueKey), hlatest, by rw [← hkey]⟩

theorem Mirrors.flushMetadata : Mirrors points (table.flushMetadata env).1 := by
  rw [TimeSeriesTable.flushMetadata, if_neg h.unpoisoned]
  split
  · refine { h with rooted := fun entry hent => ?_ }
    obtain ⟨e, he, rfl⟩ := mem_map.mp hent
    exact Option.isSome_iff_exists.mpr ⟨e.2, lookup_eq_some.mpr he⟩
  · exact h

theorem Mirrors.reopen (hemp : table.series.entries.length = 0) :
    Mirrors points table.reopen := by
  have hlook : ∀ key, table.series.lookup key = none := by
    intro key
    rw [SortedMap.lookup, length_eq_zero_iff.mp hemp]
    rfl
  have hroot : table.root = [] := by
    refine eq_nil_iff_forall_not_mem.mpr fun entry hent => ?_
    have hsome := h.rooted entry hent
    rw [hlook] at hsome
    cases hsome
  have hmanager : ∀ key, table.managerOf key = .new := fun key => by rw [managerOf, hlook, Option.getD_none]
  have hsame : table.reopen = { table with series := .empty, poisoned := false } := by
    rw [TimeSeriesTable.reopen, hroot]
    rfl
  rw [hsame]
  refine ⟨rfl, fun key manager hsome => ?_, fun key => kept_new, fun entry hent => ?_, fun key ts => ?_⟩
  · cases hsome
  · rw [hroot] at hent
    cases hent
  · have halike := h.alike key ts
    rw [chain, hmanager] at halike
    exact halike

end

variable {size : ℕ} {trace : List (TimeSeriesCall × Except (Failure TimeSeriesError) TimeSeriesAnswer)}

/-- **In a calm run the table holds the appended points.** -/
theorem mirrors_of_run (h : Run (exec env) Calm (new size) trace table) :
    Mirrors (appended trace) table := by
  refine h.invariant (mirrors_new size) ?_
  intro trace table call hmirrors hcalm
  cases call with
  | appendPoint now key ts value txId =>
    rcases Mirrors.append value hmirrors hcalm.1 hcalm.2 with ⟨hok, happended⟩ | ⟨e, herror, hkept⟩
    · have hans : (exec env table (.appendPoint now key ts value txId)).2 = .ok .done :=
        congrArg (Except.map fun _ => TimeSeriesAnswer.done) hok
      rw [hans]
      exact happended
    · have hans : (exec env table (.appendPoint now key ts value txId)).2 = .error e :=
        congrArg (Except.map fun _ => TimeSeriesAnswer.done) herror
      rw [hans]
      exact hkept
  | commitVersions txId lsn =>
    have hlsn : lsn.toNat ≤ u64Max := Nat.le_sub_one_of_lt lsn.toNat_lt
    obtain ⟨hok, hcomm⟩ := hmirrors.commitVersions hlsn
    have hans : (exec env table (.commitVersions txId lsn)).2 = .ok .done :=
      congrArg (Except.map fun _ => TimeSeriesAnswer.done) hok
    rw [hans]
    exact hcomm
  | scanSeries now key a b => exact (hmirrors.scanSeries hcalm.1 hcalm.2.1 hcalm.2.2).1
  | latestBefore key t => exact hmirrors
  | flushMetadata => exact hmirrors.flushMetadata
  | reopen => exact hmirrors.reopen hcalm

/-- **What a calm run answers.** A scan from time zero on returns exactly the committed points of the
range in the order of time, and the latest point at or before a time is found. -/
theorem queries_of_run (h : Run (exec env) Calm (new size) trace table) : (∀ now key a b, 0 ≤ a → a ≤ b → b ≤ i64Max →
      ScanRight (appended trace) key a b (table.scanSeries env now key a b).2) ∧
    ∀ key t, LatestRight (appended trace) key t (table.latestBefore key t) :=
  have hmirrors := mirrors_of_run h
  ⟨fun _ _ _ _ ha hab hb => (hmirrors.scanSeries ha hab hb).2, hmirrors.latestBefore⟩

/-- Pages that take everything. -/
def roomy : TimeSeriesEnv := ⟨fun _ => true, fun _ => true⟩

/-- Two points of a series in two buckets, a scan between them and a commit. -/
def calmCalls : List TimeSeriesCall :=
  [.appendPoint 1 [1] 5 [50] 1, .scanSeries 2 [1] 0 9, .appendPoint 3 [1] 25 [60] 1, .commitVersions 1 7]

theorem queries_of_run_two_buckets : Guarded (exec roomy) Calm [] (new 10) calmCalls ∧
    (∀ now key a b, 0 ≤ a → a ≤ b → b ≤ i64Max →
      ScanRight (appended (execute (exec roomy) (new 10) calmCalls).1) key a b
        ((execute (exec roomy) (new 10) calmCalls).2.scanSeries roomy now key a b).2) ∧
    ∀ key t, LatestRight (appended (execute (exec roomy) (new 10) calmCalls).1) key t
      ((execute (exec roomy) (new 10) calmCalls).2.latestBefore key t) :=
  have hcalm : Guarded (exec roomy) Calm [] (new 10) calmCalls := by decide +kernel
  ⟨hcalm, queries_of_run hcalm.run⟩

/-- A point is appended and committed, and points follow in a hundred other buckets. -/
def evictingCalls : List TimeSeriesCall :=
  [.appendPoint 0 [1] 0 [50] 1, .commitVersions 1 7] ++
    (List.range 100).map fun i => .appendPoint (i + 1) [1] (i + 1) [60] 2

/-- A point is appended and committed, the metadata is written, and the table is reopened. -/
def reopeningCalls : List TimeSeriesCall :=
  [.appendPoint 0 [1] 5 [50] 1, .commitVersions 1 7, .flushMetadata, .reopen]

theorem not_latestRight {answer : Except (Failure TimeSeriesError) (Option TimePointRef)} (value : Bytes)
    (hnone : answer = .ok none) (hcomm : committedAt points key ts = some value) :
    ¬ LatestRight points key ts answer := by
  rintro ⟨found, hans, hlatest⟩
  obtain rfl : none = found := Except.ok.inj (hnone.symm.trans hans)
  have hfound := (hlatest ⟨key, ts, value⟩).mpr ⟨rfl, le_rfl, hcomm, fun ts' hlt hle => absurd hle (not_le.mpr hlt)⟩
  cases hfound

/-- **A bucket that was evicted is not found, and no bucket is after a reopening.** A committed point is
missed by the search for the latest point in both runs. -/
theorem queries_of_run_fails : ¬ LatestRight (appended (execute (exec roomy) (new 1) evictingCalls).1) [1] 0
      ((execute (exec roomy) (new 1) evictingCalls).2.latestBefore [1] 0) ∧
    ¬ LatestRight (appended (execute (exec roomy) (new 10) reopeningCalls).1) [1] 5
      ((execute (exec roomy) (new 10) reopeningCalls).2.latestBefore [1] 5) ∧
    ¬ ScanRight (appended (execute (exec roomy) (new 10) reopeningCalls).1) [1] 0 9
      ((execute (exec roomy) (new 10) reopeningCalls).2.scanSeries roomy 9 [1] 0 9).2 := by
  refine ⟨?_, ?_, ?_⟩
  · exact not_latestRight [50] (by decide +kernel) (by decide +kernel)
  · exact not_latestRight [50] (by decide +kernel) (by decide +kernel)
  · rintro ⟨found, hans, -, hscan⟩
    have hcomm : committedAt (appended (execute (exec roomy) (new 10) reopeningCalls).1) [1] 5 = some [50] := by
      decide +kernel
    have hnone : ((execute (exec roomy) (new 10) reopeningCalls).2.scanSeries roomy 9 [1] 0 9).2 = .ok [] := by
      decide +kernel
    obtain rfl : [] = found := Except.ok.inj (hnone.symm.trans hans)
    have hfound := (hscan (5, [50])).mpr ⟨by decide, by decide, hcomm⟩
    cases hfound

end TimeSeriesTable

end NanoStore.Table
