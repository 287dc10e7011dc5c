import NanoStore.Table.FullText
/-!
# The full-text index — runs of calls

What the index is meant to answer: a multi-version map from documents to
their terms, with one writer, since a commit takes everything that is not
committed. A snapshot finds the documents whose version at its position
has a term of the query.

The index answers so as long as no commit stamps an entry anew that a
snapshot reads through its old stamp, and no document is indexed again
without its old terms being deleted. In general it does not
(`search_of_run_fails`): the second commit takes the documents of the
first one away from the snapshots between the two.
-/

namespace NanoStore.Table

open Txn Steps MultiVersion List SortedMap

/-- A call that changes the index. -/
inductive FullTextCall (Text B : Type)
  | indexDocument (docId : Bytes) (fields : List (TextField Text B)) (txId : TransactionId)
  | updateDocument (docId : Bytes) (fields : List (TextField Text B)) (txId : TransactionId)
  | deleteDocument (docId : Bytes) (txId : TransactionId)
  | commitVersions (lsn : ℕ)

namespace FullTextIndex

variable {Text Term B Score : Type} {env : FullTextEnv Text Term B Score}
  {entries : List (PostingEntry B)} {d docId : Bytes} {field : String} {position s lsn : ℕ} {boost : B}
  {txId : TransactionId} {entry : PostingEntry B} {t : Term}
  {fields : List (TextField Text B)} {p : PostingEntry B → Bool} {b : Bool}

/-! ## Entries of a document -/

/-- The newest version is no tombstone. -/
def newestLive (entry : PostingEntry B) : Bool :=
  match entry.versionChain with
  | ⟨.inline value, _, _⟩ :: _ => value ≠ tombstoneMarker
  | _ => false

/-- An entry of the document has the property. -/
def Has (p : PostingEntry B → Bool) (entries : List (PostingEntry B)) (d : Bytes) : Prop :=
  ∃ e ∈ entries, e.docId = d ∧ p e = true

/-- A snapshot sees an entry of the document. -/
abbrev Shows (entries : List (PostingEntry B)) (d : Bytes) (s : ℕ) : Prop :=
  Has (·.isVisible (.atLsn s)) entries d

/-- The newest version of an entry of the document is not a tombstone. -/
abbrev Current (entries : List (PostingEntry B)) (d : Bytes) : Prop := Has newestLive entries d

/-- What a new version does to a property: it gives it to the entry, or leaves it as it is. -/
structure Reacts (env : FullTextEnv Text Term B Score) (p : PostingEntry B → Bool) (b : Bool) : Prop where
  new : ∀ docId field positions boost txId, p (.new env docId field positions boost txId) = b
  old : ∀ e positions boost txId, p (e.prependVersion env positions boost txId) = (b || p e)

theorem encode_ne_tombstone {p : List ℕ × B} : env.encode p ≠ tombstoneMarker := by
  intro heq
  have hlen := env.four_lt_length p
  rw [heq] at hlen
  exact absurd hlen (by decide)

/-- What a posting list becomes: its first entry gets a version, or the rest takes the occurrence. -/
theorem addPosting_cons {e : PostingEntry B} :
    addPosting env docId field position boost txId (e :: entries) =
      if e.docId = docId ∧ e.field = field then
        e.prependVersion env (if env.enablePositions then e.positions ++ [position] else e.positions)
          boost txId :: entries
      else e :: addPosting env docId field position boost txId entries := by
  unfold addPosting
  rw [findIdx?_cons]
  by_cases h : e.docId = docId ∧ e.field = field
  · simp only [h, and_self, decide_true, if_true]
    rfl
  · simp only [h, decide_false, Bool.false_eq_true, if_false]
    cases entries.findIdx? fun e => decide (e.docId = docId ∧ e.field = field) with
    | none => rfl
    | some i => rfl

theorem exists_mem_map {p : PostingEntry B → Prop} {f : PostingEntry B → PostingEntry B} :
    (∃ e ∈ entries.map f, p e) ↔ ∃ e ∈ entries, p (f e) := by
  simp [mem_map, exists_exists_and_eq_and]

theorem reacts_isVisible : Reacts env (·.isVisible (.atLsn s)) false :=
  ⟨fun _ _ _ _ _ => rfl, fun _ _ _ _ => rfl⟩

theorem reacts_newestLive : Reacts env newestLive true :=
  ⟨fun _ _ _ _ _ => decide_eq_true encode_ne_tombstone,
    fun _ _ _ _ => decide_eq_true encode_ne_tombstone⟩

theorem has_cons : Has p (entry :: entries) d ↔ entry.docId = d ∧ p entry = true ∨ Has p entries d := by
  simp [Has]

/-- A posting added makes the document one of the postings, if the property takes new versions. -/
theorem has_addPosting (h : Reacts env p b) :
    Has p (addPosting env docId field position boost txId entries) d ↔
      b = true ∧ d = docId ∨ Has p entries d := by
  induction entries with
  | nil =>
    rw [addPosting, findIdx?_nil, nil_append, has_cons, h.new, and_comm, @eq_comm _ d]
    rfl
  | cons e entries ih =>
    rw [addPosting_cons]
    by_cases he : e.docId = docId ∧ e.field = field
    · rw [if_pos he, has_cons, has_cons, h.old, ← he.1, Bool.or_eq_true, @eq_comm _ d, and_or_left,
        or_assoc, @and_comm _ (b = true)]
      rfl
    · rw [if_neg he, has_cons, has_cons, ih, or_left_comm]

theorem mem_addPosting {e : PostingEntry B} (he : e ∈ addPosting env docId field position boost txId entries)
    (hne : e.docId ≠ docId) : e ∈ entries := by
  induction entries with
  | nil =>
    rw [mem_singleton.mp he] at hne
    exact absurd rfl hne
  | cons old entries ih =>
    rw [addPosting_cons] at he
    by_cases hold : old.docId = docId ∧ old.field = field
    · rw [if_pos hold] at he
      rcases mem_cons.mp he with rfl | he
      · exact absurd hold.1 hne
      · exact mem_cons_of_mem _ he
    · rw [if_neg hold] at he
      rcases mem_cons.mp he with rfl | he
      · exact mem_cons_self
      · exact mem_cons_of_mem _ (ih he)

/-- The entries of a document with a tombstone each. -/
def bury (docId : Bytes) (txId : TransactionId) (entries : List (PostingEntry B)) : List (PostingEntry B) :=
  entries.map fun e => if e.docId = docId then e.prependTombstone txId else e

theorem docId_bury {e : PostingEntry B} :
    (if e.docId = docId then e.prependTombstone txId else e).docId = e.docId := by
  split_ifs
  · rfl
  · rfl

/-- A tombstone changes the postings of its document only. -/
theorem has_bury (h : ∀ e : PostingEntry B, p (e.prependTombstone txId) = (b && p e)) :
    Has p (bury docId txId entries) d ↔ (d = docId → b = true) ∧ Has p entries d := by
  unfold Has bury
  rw [exists_mem_map]
  constructor
  · rintro ⟨e, he, hd, hp⟩
    rw [docId_bury] at hd
    split_ifs at hp with hdoc
    · rw [h, Bool.and_eq_true] at hp
      exact ⟨fun _ => hp.1, e, he, hd, hp.2⟩
    · exact ⟨fun heq => absurd (hd.trans heq) hdoc, e, he, hd, hp⟩
  · rintro ⟨hb, e, he, hd, hp⟩
    refine ⟨e, he, docId_bury.trans hd, ?_⟩
    split_ifs with hdoc
    · rw [h, hb (hd.symm.trans hdoc), hp]
      rfl
    · exact hp

/-! ## Commits -/

/-- Snapshots before a commit do not see what the newest version of an entry hides. -/
def Undisturbed (lsn : ℕ) (entry : PostingEntry B) : Prop :=
  ∀ s < lsn, entry.isVisible (.atLsn s) =
    { entry with versionChain := entry.versionChain.tail }.isVisible (.atLsn s)

instance : Decidable (Undisturbed lsn entry) := inferInstanceAs (Decidable (∀ s < lsn, _))

/-- Before the number of the commit the newest version is not seen. -/
theorem isVisible_commit_of_lt (hs : s < lsn) : (entry.commit lsn).isVisible (.atLsn s) =
    { entry with versionChain := entry.versionChain.tail }.isVisible (.atLsn s) := by
  unfold PostingEntry.commit PostingEntry.isVisible
  cases entry.versionChain with
  | nil => rfl
  | cons newest older =>
    have hunseen : Version.visible (.atLsn s) { newest with commitLsn := some lsn } = false := by
      simp [Version.visible, hs]
    simp [tail_cons, VersionChain.findVisibleInline_of_hidden hunseen]

/-- From it on it is. -/
theorem isVisible_commit_of_le (hs : lsn ≤ s) :
    (entry.commit lsn).isVisible (.atLsn s) = newestLive entry := by
  unfold PostingEntry.commit PostingEntry.isVisible newestLive
  cases entry.versionChain with
  | nil => rfl
  | cons newest older =>
    have hseen : Version.visible (.atLsn s) { newest with commitLsn := some lsn } = true := by
      simp [Version.visible, hs]
    obtain ⟨value, createdBy, commitLsn⟩ := newest
    simp only [VersionChain.findVisibleInline_of_visible hseen]
    cases value with
    | inline data | external ref => rfl

theorem newestLive_commit : newestLive (entry.commit lsn) = newestLive entry := by
  unfold PostingEntry.commit newestLive
  cases entry.versionChain with
  | nil => rfl
  | cons newest older =>
    obtain ⟨value, createdBy, commitLsn⟩ := newest
    cases value with
    | inline data | external ref => rfl

theorem has_commit {q : PostingEntry B → Bool} (h : ∀ e ∈ entries, p (e.commit lsn) = q e) :
    Has p (entries.map (·.commit lsn)) d ↔ Has q entries d := by
  unfold Has
  rw [exists_mem_map]
  refine exists_congr fun e => and_congr_right fun he => ?_
  rw [h e he]
  exact Iff.rfl

/-! ## The index and the documents -/

/-- The terms of a document. -/
def termsOf (env : FullTextEnv Text Term B Score) (fields : List (TextField Text B)) : List Term :=
  (newTerms env fields).map fun occurrence => occurrence.1

variable [LinearOrder Term] {index : FullTextIndex Text Term B}

theorem postings_addTerm {inverted : SortedMap Term (List (PostingEntry B))}
    {occurrence : Term × String × ℕ × B} : ((addTerm env docId txId inverted occurrence).lookup t).getD [] =
      if t = occurrence.1 then
        addPosting env docId occurrence.2.1 occurrence.2.2.1 occurrence.2.2.2 txId
          ((inverted.lookup t).getD []) else (inverted.lookup t).getD [] := by
  rw [addTerm, lookup_insert]
  split_ifs with ht
  · rw [ht, Option.getD_some]
  · rfl

/-- **Indexing a document** gives a property to the entries of its terms, or leaves it, and leaves the
entries of other documents. -/
theorem foldl_addTerm (h : Reacts env p b) (occurrences : List (Term × String × ℕ × B))
    (inverted : SortedMap Term (List (PostingEntry B))) :
    let entries := ((occurrences.foldl (addTerm env docId txId) inverted).lookup t).getD []
    (∀ d, Has p entries d ↔ b = true ∧ d = docId ∧ t ∈ occurrences.map (fun o => o.1) ∨
      Has p ((inverted.lookup t).getD []) d) ∧
      ∀ e ∈ entries, e.docId ≠ docId → e ∈ (inverted.lookup t).getD [] := by
  induction occurrences generalizing inverted with
  | nil =>
    refine ⟨fun d => ?_, fun e he _ => he⟩
    simp
  | cons occurrence rest ih =>
    obtain ⟨hhas, hmem⟩ := ih (addTerm env docId txId inverted occurrence)
    rw [foldl_cons]
    simp only [postings_addTerm] at hhas hmem
    by_cases ht : t = occurrence.1
    · simp only [if_pos ht] at hhas hmem
      refine ⟨fun d => ?_, fun e he hne => mem_addPosting (hmem e he hne) hne⟩
      rw [hhas d, has_addPosting h, map_cons, mem_cons]
      tauto
    · simp only [if_neg ht] at hhas hmem
      refine ⟨fun d => ?_, hmem⟩
      rw [hhas d, map_cons, mem_cons]
      tauto

/-- What is indexed is not yet seen. -/
theorem shows_indexDocument :
    Shows ((index.indexDocument env docId fields txId).postings t) d s ↔ Shows (index.postings t) d s :=
  ((foldl_addTerm reacts_isVisible (newTerms env fields) index.invertedIndex).1 d).trans
    (by simp [postings])

/-- It is current for its terms. -/
theorem current_indexDocument : Current ((index.indexDocument env docId fields txId).postings t) d ↔
    d = docId ∧ t ∈ termsOf env fields ∨ Current (index.postings t) d :=
  ((foldl_addTerm reacts_newestLive (newTerms env fields) index.invertedIndex).1 d).trans
    (by simp [termsOf, postings])

theorem postings_deleteDocument (h : (index.documentStore.lookup docId).isSome = true) :
    (index.deleteDocument docId txId).postings t = bury docId txId (index.postings t) := by
  rw [deleteDocument, if_pos h, postings, lookup_mapValues]
  unfold postings
  cases index.invertedIndex.lookup t with
  | none | some entries => rfl

theorem postings_commitVersions :
    (index.commitVersions lsn).postings t = (index.postings t).map (·.commit lsn) := by
  rw [commitVersions, postings, lookup_mapValues]
  unfold postings
  cases index.invertedIndex.lookup t with
  | none | some entries => rfl

/-- Only documents of the document store have entries. -/
def Stored (index : FullTextIndex Text Term B) : Prop :=
  ∀ d, index.documentStore.lookup d = none → ∀ t, ∀ e ∈ index.postings t, e.docId ≠ d

section

variable (h : Stored index)
include h

theorem Stored.indexDocument : Stored (index.indexDocument env docId fields txId) := by
  intro d hd t e he heq
  have hne : d ≠ docId := by
    rintro rfl
    rw [indexDocument, lookup_insert, if_pos rfl] at hd
    cases hd
  rw [FullTextIndex.indexDocument, lookup_insert, if_neg hne] at hd
  have hold := (foldl_addTerm reacts_newestLive (newTerms env fields) index.invertedIndex).2 e he
    (heq ▸ hne)
  exact h d hd t e hold heq

theorem Stored.deleteDocument : Stored (index.deleteDocument docId txId) := by
  by_cases hstored : (index.documentStore.lookup docId).isSome = true
  · intro d hd t e he heq
    rw [postings_deleteDocument hstored] at he
    obtain ⟨e', he', rfl⟩ := mem_map.mp he
    rw [docId_bury] at heq
    rw [FullTextIndex.deleteDocument, if_pos hstored] at hd
    exact h d hd t e' he' heq
  · rw [FullTextIndex.deleteDocument, if_neg hstored]
    exact h

theorem Stored.commitVersions : Stored (index.commitVersions lsn) := by
  intro d hd t e he heq
  rw [postings_commitVersions] at he
  obtain ⟨e', he', rfl⟩ := mem_map.mp he
  exact h d hd t e' he' heq

theorem has_deleteDocument
    (htomb : ∀ e : PostingEntry B, p (e.prependTombstone txId) = (b && p e)) :
    Has p ((index.deleteDocument docId txId).postings t) d ↔
      (d = docId → b = true) ∧ Has p (index.postings t) d := by
  by_cases hstored : (index.documentStore.lookup docId).isSome = true
  · rw [postings_deleteDocument hstored, has_bury htomb]
  · rw [deleteDocument, if_neg hstored]
    refine ⟨fun hhas => ⟨?_, hhas⟩, And.right⟩
    rintro rfl
    obtain ⟨e, he, heq, -⟩ := hhas
    exact absurd heq (h _ (Option.not_isSome_iff_eq_none.mp hstored) t e he)

/-- Nor is a deletion. -/
theorem shows_deleteDocument :
    Shows ((index.deleteDocument docId txId).postings t) d s ↔ Shows (index.postings t) d s :=
  (has_deleteDocument (b := true) h fun _ => rfl).trans (by simp)

theorem current_deleteDocument :
    Current ((index.deleteDocument docId txId).postings t) d ↔ d ≠ docId ∧ Current (index.postings t) d :=
  (has_deleteDocument (b := false) h fun _ => rfl).trans (by simp)

end

/-! ## Answers -/

omit [LinearOrder Term] in
theorem isSome_lookup_bump {scores : SortedMap Bytes Score} {docId : Bytes} {score : Score} :
    ((bump env scores docId score).lookup d).isSome = true ↔ d = docId ∨ (scores.lookup d).isSome = true := by
  rw [bump, lookup_insert]
  by_cases hd : d = docId
  · simp [hd]
  · simp [hd]

omit [LinearOrder Term] in
theorem isSome_lookup_foldl_bump (weight : PostingEntry B → Score)
    (scores : SortedMap Bytes Score) :
    ((entries.foldl (fun scores e => bump env scores e.docId (weight e)) scores).lookup d).isSome = true ↔
      (∃ e ∈ entries, e.docId = d) ∨ (scores.lookup d).isSome = true := by
  induction entries generalizing scores with
  | nil => simp
  | cons e rest ih =>
    rw [foldl_cons, ih, isSome_lookup_bump]
    simp only [mem_cons, or_and_right, exists_or, exists_eq_left, @eq_comm _ d]
    exact or_left_comm.trans or_assoc.symm

/-- **The documents with a score are those with an entry that counts.** -/
theorem isSome_lookup_scores (query : Text) (snapshot : Option Snapshot) :
    ((index.scores env query snapshot).lookup d).isSome = true ↔
      ∃ t ∈ env.tokenize query, ∃ e ∈ index.postings t.1, counts snapshot e = true ∧ e.docId = d := by
  have hfold : ∀ (terms : List (Term × ℕ)) (scores : SortedMap Bytes Score),
      ((terms.foldl (fun scores t => ((index.postings t.1).filter (counts snapshot)).foldl (fun scores entry =>
        bump env scores entry.docId
          (env.tfIdf index.numDocuments entry.docId (index.postings t.1) snapshot)) scores)
        scores).lookup d).isSome = true ↔
      (∃ t ∈ terms, ∃ e ∈ index.postings t.1, counts snapshot e = true ∧ e.docId = d) ∨
        (scores.lookup d).isSome = true := by
    intro terms
    induction terms with
    | nil => simp
    | cons t rest ih =>
      intro scores
      rw [foldl_cons, ih, isSome_lookup_foldl_bump]
      simp only [mem_cons, or_and_right, exists_or, exists_eq_left, mem_filter, and_assoc]
      exact or_left_comm.trans or_assoc.symm
  rw [scores, hfold, lookup_empty]
  simp

/-- A search finds the documents with a posting that counts. -/
theorem mem_searchWithSnapshot {query : Text} {limit : ℕ} {snapshot : Option Snapshot}
    (hlimit : (index.scores env query snapshot).entries.length ≤ limit) :
    d ∈ (index.searchWithSnapshot env query limit snapshot).map Prod.fst ↔
      ∃ t ∈ env.tokenize query, ∃ e ∈ index.postings t.1, counts snapshot e = true ∧ e.docId = d := by
  have hperm := mergeSort_perm (index.scores env query snapshot).entries fun a b => env.before a.2 b.2
  rw [searchWithSnapshot, take_of_length_le (hperm.length_eq.trans_le hlimit),
    (hperm.map Prod.fst).mem_iff, ← isSome_lookup_scores, Option.isSome_iff_exists]
  constructor
  · intro hmem
    obtain ⟨⟨_, score⟩, hent, rfl⟩ := mem_map.mp hmem
    exact ⟨score, lookup_eq_some.mpr hent⟩
  · rintro ⟨score, hscore⟩
    exact mem_map.mpr ⟨(d, score), lookup_eq_some.mp hscore, rfl⟩

/-! ## Runs -/

variable (env)

/-- The call on the reference map. All calls are of one writer, as a commit takes what all have written. -/
def toCall : FullTextCall Text B → Call Bytes Unit (List Term)
  | .indexDocument docId fields _ => .write () docId (some (termsOf env fields))
  | .updateDocument docId fields _ => .write () docId (some (termsOf env fields))
  | .deleteDocument docId _ => .write () docId none
  | .commitVersions lsn => .commit () lsn

/-- One call of the index. -/
def exec (index : FullTextIndex Text Term B) : FullTextCall Text B → FullTextIndex Text Term B × Unit
  | .indexDocument docId fields txId => (index.indexDocument env docId fields txId, ())
  | .updateDocument docId fields txId => (index.updateDocument env docId fields txId, ())
  | .deleteDocument docId txId => (index.deleteDocument docId txId, ())
  | .commitVersions lsn => (index.commitVersions lsn, ())

variable (trace : List (FullTextCall Text B × Unit))

/-- The documents with their histories. -/
def reference : Map Bytes Unit (List Term) :=
  replay (trace.map fun c => toCall env c.1)

/-- Commits come at rising positions. -/
def Rising (_ : FullTextIndex Text Term B)
    (call : FullTextCall Text B) : Prop :=
  (toCall env call).Allowed (trace.map fun c => toCall env c.1)

/-- The call leaves to the snapshots what they read. A document is indexed only if it is current for no
other term than its new ones, and a commit comes only if no entry loses a stamp that hides something. -/
def Gentle (index : FullTextIndex Text Term B) : FullTextCall Text B → Prop
  | .indexDocument docId fields _ => ∀ posting ∈ index.invertedIndex.entries, ∀ e ∈ posting.2,
      e.docId = docId → newestLive e = true → posting.1 ∈ termsOf env fields
  | .commitVersions lsn => ∀ posting ∈ index.invertedIndex.entries, ∀ e ∈ posting.2, Undisturbed lsn e
  | .updateDocument _ _ _ => True
  | .deleteDocument _ _ => True

/-- Rising positions, and gentle calls. -/
def Well (index : FullTextIndex Text Term B)
    (call : FullTextCall Text B) : Prop :=
  Rising env trace index call ∧ Gentle env index call

/-- The document is an answer: its last version committed at or before the position has a term of the
query. -/
def Answers (map : Map Bytes Unit (List Term)) (query : Text) (s : ℕ) (d : Bytes) : Prop :=
  ∃ terms, map.get d s = some terms ∧ ∃ t ∈ env.tokenize query, t.1 ∈ terms

/-- A search that is not limited returns exactly the answers, each once. -/
def Faithful (index : FullTextIndex Text Term B) : Prop :=
  ∀ query s limit, (index.scores env query (some (.atLsn s))).entries.length ≤ limit →
    ((index.searchWithSnapshot env query limit (some (.atLsn s))).map Prod.fst).Nodup ∧
      ∀ d, d ∈ (index.searchWithSnapshot env query limit (some (.atLsn s))).map Prod.fst ↔
        Answers env (reference env trace) query s d

/-- The entries show what the documents have. -/
structure Mirrors (index : FullTextIndex Text Term B) (map : Map Bytes Unit (List Term)) : Prop where
  stored : Stored index
  shows : ∀ t d s, Shows (index.postings t) d s ↔ ∃ terms, map.get d s = some terms ∧ t ∈ terms
  current : ∀ t d, Current (index.postings t) d ↔
    ∃ terms, (map d).head?.bind Write.value = some terms ∧ t ∈ terms

variable {env trace} {map : Map Bytes Unit (List Term)} {call : FullTextCall Text B}

theorem mirrors_new : Mirrors (new : FullTextIndex Text Term B) Map.empty := by
  have hnone : ∀ p d, ¬ Has p ([] : List (PostingEntry B)) d := fun p d ⟨_, he, _⟩ => not_mem_nil he
  refine ⟨fun _ _ _ _ => not_mem_nil.elim, fun t d s => iff_of_false (hnone _ d) ?_,
    fun t d => iff_of_false (hnone _ d) ?_⟩
  · rintro ⟨terms, hget, -⟩
    cases hget
  · rintro ⟨terms, hget, -⟩
    cases hget

omit [LinearOrder Term] in
theorem get_write {value : Option (List Term)} : (map.write () docId value).get d s = map.get d s := by
  unfold Map.get Map.write
  by_cases hd : d = docId
  · rw [hd, Function.update_self, History.read_write]
  · rw [Function.update_of_ne hd]

/-- An index that shows what it showed and is current for what was written mirrors the map with the
write. -/
theorem Mirrors.write {index' : FullTextIndex Text Term B} {value : Option (List Term)}
    (h : Mirrors index map) (hstored : Stored index')
    (hshows : ∀ t d s, Shows (index'.postings t) d s ↔ Shows (index.postings t) d s)
    (hself : ∀ t, Current (index'.postings t) docId ↔ ∃ terms, value = some terms ∧ t ∈ terms)
    (hother : ∀ t d, d ≠ docId → (Current (index'.postings t) d ↔ Current (index.postings t) d)) :
    Mirrors index' (map.write () docId value) := by
  refine ⟨hstored, fun t d s => ?_, fun t d => ?_⟩
  · rw [hshows, h.shows, get_write]
  · unfold Map.write
    by_cases hd : d = docId
    · rw [hd, Function.update_self, hself]
      rfl
    · rw [Function.update_of_ne hd, hother t d hd, h.current]

section

variable (h : Mirrors index map)
include h

theorem Mirrors.indexDocument
    (hgentle : ∀ t, Current (index.postings t) docId → t ∈ termsOf env fields) :
    Mirrors (index.indexDocument env docId fields txId) (map.write () docId (some (termsOf env fields))) := by
  refine h.write h.stored.indexDocument (fun _ _ _ => shows_indexDocument) (fun t => ?_) fun t d hd => ?_
  · rw [current_indexDocument]
    simp only [true_and, Option.some.injEq, exists_eq_left']
    exact ⟨fun hor => hor.elim id (hgentle t), .inl⟩
  · rw [current_indexDocument]
    exact ⟨fun hor => hor.elim (fun hself => absurd hself.1 hd) id, .inr⟩

theorem Mirrors.deleteDocument :
    Mirrors (index.deleteDocument docId txId) (map.write () docId none) := by
  refine h.write h.stored.deleteDocument (fun _ _ _ => shows_deleteDocument h.stored) (fun t => ?_)
    fun t d hd => ?_
  · rw [current_deleteDocument h.stored]
    exact iff_of_false (fun hand => hand.1 rfl) nofun
  · rw [current_deleteDocument h.stored]
    exact and_iff_right hd

/-- To delete and index anew is one write. -/
theorem Mirrors.updateDocument :
    Mirrors (index.updateDocument env docId fields txId) (map.write () docId (some (termsOf env fields))) := by
  refine h.write h.stored.deleteDocument.indexDocument (fun t d s => ?_) (fun t => ?_) fun t d hd => ?_
  · exact shows_indexDocument.trans (shows_deleteDocument h.stored)
  · rw [FullTextIndex.updateDocument, current_indexDocument, current_deleteDocument h.stored]
    simp
  · rw [FullTextIndex.updateDocument, current_indexDocument, current_deleteDocument h.stored]
    simp [hd]

/-- A commit mirrors the map's if it disturbs no posting. -/
theorem Mirrors.commitVersions (hord : ∀ d, Ordered (map d))
    (hord' : ∀ d, Ordered ((map d).commit () lsn))
    (hbelow : ∀ d, ∀ w ∈ map d, ∀ m, w.committedAt = some m → m ≤ lsn)
    (hgentle : ∀ t, ∀ e ∈ index.postings t, Undisturbed lsn e) :
    Mirrors (index.commitVersions lsn) (map.commit () lsn) := by
  refine ⟨h.stored.commitVersions, fun t d s => ?_, fun t d => ?_⟩
  · rw [postings_commitVersions, Map.get, Map.commit]
    rcases Nat.lt_or_ge s lsn with hlt | hle
    · rw [(hord d).read_commit_of_lt (hord' d) hlt]
      exact (has_commit fun e he => (isVisible_commit_of_lt hlt).trans (hgentle t e he s hlt).symm).trans
        (h.shows t d s)
    · rw [(hord' d).read_commit_of_le (fun _ _ _ => rfl) (hbelow d) hle]
      exact (has_commit fun _ _ => isVisible_commit_of_le hle).trans (h.current t d)
  · have hnew : (map.commit () lsn d).head?.bind Write.value = (map d).head?.bind Write.value := by
      unfold Map.commit History.commit
      cases map d with
      | nil => rfl
      | cons w older =>
        rw [map_cons, head?_cons, head?_cons, Option.bind_some, Option.bind_some]
        split_ifs
        · rfl
        · rfl
    rw [postings_commitVersions, hnew]
    exact (has_commit fun _ _ => newestLive_commit).trans (h.current t d)

end

theorem mem_entries_of_postings {e : PostingEntry B} (he : e ∈ index.postings t) :
    ∃ posting ∈ index.invertedIndex.entries, posting.1 = t ∧ e ∈ posting.2 := by
  unfold postings at he
  cases hlook : index.invertedIndex.lookup t with
  | none =>
    rw [hlook] at he
    cases he
  | some entries =>
    rw [hlook, Option.getD_some] at he
    exact ⟨(t, entries), lookup_eq_some.mp hlook, rfl, he⟩

/-- What every call of a run keeps. -/
structure Invariant (env : FullTextEnv Text Term B Score) (trace : List (FullTextCall Text B × Unit))
    (index : FullTextIndex Text Term B) : Prop where
  orderly : Orderly (trace.map fun c => toCall env c.1)
  mirrors : Mirrors index (reference env trace)

/-- **One call** that is well placed keeps the mirror. -/
theorem Invariant.exec (h : Invariant env trace index) (hwell : Well env trace index call) :
    Invariant env ((call, (exec env index call).2) :: trace) (exec env index call).1 := by
  obtain ⟨hallow, hgentle⟩ := hwell
  have horderly : Orderly (((call, (FullTextIndex.exec env index call).2) :: trace).map
      fun c => toCall env c.1) :=
    ⟨hallow, h.orderly⟩
  refine ⟨horderly, ?_⟩
  cases call with
  | indexDocument docId fields txId =>
    refine h.mirrors.indexDocument fun t hcur => ?_
    obtain ⟨e, he, hdoc, hlive⟩ := hcur
    obtain ⟨posting, hposting, rfl, hmem⟩ := mem_entries_of_postings he
    exact hgentle posting hposting e hmem hdoc hlive
  | updateDocument docId fields txId => exact h.mirrors.updateDocument
  | deleteDocument docId txId => exact h.mirrors.deleteDocument
  | commitVersions lsn =>
    refine h.mirrors.commitVersions h.orderly.ordered horderly.ordered (fun d w hw m hm => ?_)
      fun t e he => ?_
    · exact (hallow m (mem_of_committedAt hw hm)).le
    · obtain ⟨posting, hposting, -, hmem⟩ := mem_entries_of_postings he
      exact hgentle posting hposting e hmem

/-- A search answers as the map does. -/
theorem Mirrors.search (h : Mirrors index map) {query : Text} {limit : ℕ}
    (hlimit : (index.scores env query (some (.atLsn s))).entries.length ≤ limit) :
    d ∈ (index.searchWithSnapshot env query limit (some (.atLsn s))).map Prod.fst ↔
      Answers env map query s d := by
  rw [mem_searchWithSnapshot hlimit]
  constructor
  · rintro ⟨t, ht, e, he, hcounts, hdoc⟩
    obtain ⟨terms, hget, hmem⟩ := (h.shows t.1 d s).mp ⟨e, he, hdoc, hcounts⟩
    exact ⟨terms, hget, t, ht, hmem⟩
  · rintro ⟨terms, hget, t, ht, hmem⟩
    obtain ⟨e, he, hdoc, hvis⟩ := (h.shows t.1 d s).mpr ⟨terms, hget, hmem⟩
    exact ⟨t, ht, e, he, hvis, hdoc⟩

/-- No document is found twice. -/
theorem nodup_searchWithSnapshot {query : Text} {limit : ℕ} {snapshot : Option Snapshot} :
    ((index.searchWithSnapshot env query limit snapshot).map Prod.fst).Nodup := by
  have hperm := mergeSort_perm (index.scores env query snapshot).entries fun a b => env.before a.2 b.2
  have hkeys : ((index.scores env query snapshot).entries.map Prod.fst).Nodup :=
    pairwise_map.mpr ((index.scores env query snapshot).ascends.imp fun hlt => hlt.ne)
  have hsort := (hperm.map Prod.fst).nodup_iff.mpr hkeys
  exact hsort.sublist ((take_sublist limit _).map _)

omit [LinearOrder Term] in
theorem get_apply_of_lt {calls : List (Call Bytes Unit (List Term))} {call : Call Bytes Unit (List Term)}
    (hord : Orderly (call :: calls)) (hlt : ∀ n ∈ call.position, s < n) :
    (replay (call :: calls)).get d s = (replay calls).get d s := by
  cases call with
  | write writer docId value => exact get_write
  | commit writer n =>
    have hord' := hord.ordered d
    exact (hord.2.ordered d).read_commit_of_lt hord' (hlt n rfl)

/-- The document is found by a search that is not limited. -/
def Finds (env : FullTextEnv Text Term B Score) (index : FullTextIndex Text Term B) (query : Text) (s : ℕ)
    (d : Bytes) : Prop :=
  d ∈ (index.searchWithSnapshot env query (index.scores env query (some (.atLsn s))).entries.length
    (some (.atLsn s))).map Prod.fst

/-- **The index answers as the documents do**, in every state of a run whose calls are gentle; and what a
snapshot finds it finds after every such call that commits nothing at or before it. -/
theorem search_of_run (h : Run (exec env) (Well env) new trace index) : Faithful env trace index ∧
    ∀ call, Well env trace index call → ∀ s, (∀ n ∈ (toCall env call).position, s < n) → ∀ query d,
      (Finds env (exec env index call).1 query s d ↔ Finds env index query s d) := by
  have hinv : Invariant env trace index :=
    h.invariant ⟨trivial, mirrors_new⟩ fun _ _ _ hinv hwell => hinv.exec hwell
  constructor
  · intro query s limit hlimit
    exact ⟨nodup_searchWithSnapshot, fun d => hinv.mirrors.search hlimit⟩
  · intro call hwell s hlt query d
    have hnext := hinv.exec hwell
    have hsame : (reference env ((call, ()) :: trace)).get d s = (reference env trace).get d s :=
      get_apply_of_lt hnext.orderly hlt
    unfold Finds
    rw [hnext.mirrors.search le_rfl, hinv.mirrors.search le_rfl]
    unfold Answers
    rw [hsame]

/-! ## Two runs -/

/-- Texts are lists of terms, and every occurrence counts one. -/
def plainEnv : FullTextEnv (List ℕ) ℕ Unit ℕ where
  tokenize text := text.zipIdx
  enablePositions := true
  encode _ := [0, 0, 0, 0, 0]
  four_lt_length _ := by decide
  tfIdf _ _ _ _ := 1
  zero := 0
  add := (· + ·)
  before a b := b ≤ a

/-- A document with one field. -/
def body (terms : List ℕ) : List (TextField (List ℕ) Unit) := [⟨"body", terms, ()⟩]

instance : Decidable (Rising env trace index call) := inferInstanceAs (Decidable (Call.Allowed _ _))

instance : Decidable (Gentle env index call) :=
  match call with
  | .indexDocument docId fields _ => inferInstanceAs (Decidable (∀ posting ∈ index.invertedIndex.entries,
      ∀ e ∈ posting.2, e.docId = docId → newestLive e = true → posting.1 ∈ termsOf env fields))
  | .commitVersions lsn => inferInstanceAs (Decidable (∀ posting ∈ index.invertedIndex.entries,
      ∀ e ∈ posting.2, Undisturbed lsn e))
  | .updateDocument _ _ _ => .isTrue trivial
  | .deleteDocument _ _ => .isTrue trivial

instance : Decidable (Well env trace index call) := inferInstanceAs (Decidable (_ ∧ _))

/-- Two documents are committed, and both are changed before the next commit. -/
def changed : List (FullTextCall (List ℕ) Unit) :=
  [.indexDocument [1] (body [1, 2]) 1, .indexDocument [2] (body [2]) 1, .commitVersions 10,
    .updateDocument [1] (body [2]) 2, .deleteDocument [2] 2, .commitVersions 20]

/-- Two documents, each indexed and then committed. -/
def overtaken : List (FullTextCall (List ℕ) Unit) :=
  [.indexDocument [1] (body [1]) 1, .commitVersions 10, .indexDocument [2] (body [2]) 2, .commitVersions 20]

/-- With every entry changed before the second commit, the snapshot at 10 and the one at 20 find what they
should. -/
theorem search_of_run_changed :
    Faithful plainEnv (execute (exec plainEnv) new changed).1 (execute (exec plainEnv) new changed).2 ∧
      (Answers plainEnv (reference plainEnv (execute (exec plainEnv) new changed).1) [1] 10 [1]) ∧
      ¬Answers plainEnv (reference plainEnv (execute (exec plainEnv) new changed).1) [1] 20 [1] := by
  refine ⟨(search_of_run (Guarded.run (by decide +kernel))).1, ⟨[1, 2], by decide, (1, 0), by decide, by decide⟩,
    ?_⟩
  rintro ⟨terms, hterms, t, ht, hmem⟩
  have hlast : (reference plainEnv (execute (exec plainEnv) new changed).1).get [1] 20 = some [2] := by decide
  rw [hlast] at hterms
  cases hterms
  have hone : t = (1, 0) := mem_singleton.mp ht
  rw [hone] at hmem
  exact absurd hmem (by decide)

/-- **The second commit takes the document of the first away from the snapshot at 10.** -/
theorem search_of_run_fails : ¬∀ trace index,
    Run (exec plainEnv) (Rising plainEnv) (new : FullTextIndex (List ℕ) ℕ Unit) trace index →
      Faithful plainEnv trace index := by
  intro hall
  have hrun : Run (exec plainEnv) (Rising plainEnv) new (execute (exec plainEnv) new overtaken).1
      (execute (exec plainEnv) new overtaken).2 := Guarded.run (by decide +kernel)
  obtain ⟨-, hfound⟩ := hall _ _ hrun [1] 10 _ le_rfl
  have hans : Answers plainEnv (reference plainEnv (execute (exec plainEnv) new overtaken).1) [1] 10 [1] :=
    ⟨[1], by decide, (1, 0), by decide, by decide⟩
  have hmem := (mem_searchWithSnapshot le_rfl).mp ((hfound [1]).mpr hans)
  revert hmem
  decide +kernel

end FullTextIndex

end NanoStore.Table
