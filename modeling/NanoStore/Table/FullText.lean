import NanoStore.Common.MultiVersion
import NanoStore.Common.SortedMap
import NanoStore.Common.Steps
import NanoStore.Txn.Version
/-!
# The full-text index

`PagedFullTextIndex` of `table/fulltext/mod.rs`: for each term the entries
of the documents and fields it stands in, each with a version chain. A
version is the positions of the term, or a tombstone. `commit_versions`
has no transaction: it stamps the newest version of every entry of the
index, whether it was committed before or not.

The tokenizer, the encoding of the positions and the weight of a term are
parameters. Writing the index to its pages, which ends every
`index_document`, leaves the index in memory as it is and is not part of
the model.
-/

namespace NanoStore.Table

open Txn

/-- `PostingEntry`; `B` are the boost factors. -/
structure PostingEntry (B : Type) where
  docId : Bytes
  field : String
  positions : List ℕ
  boost : B
  versionChain : VersionChain

/-- A field of a document. -/
structure TextField (Text B : Type) where
  name : String
  text : Text
  boost : B

/-- `PagedFullTextIndex`, with the terms and documents of its two hash maps in some order. -/
structure FullTextIndex (Text Term B : Type) [LinearOrder Term] where
  invertedIndex : SortedMap Term (List (PostingEntry B))
  documentStore : SortedMap Bytes (List (String × Text))
  numDocuments : ℕ

/-- What the index is built with: its tokenizer, `postcard` for positions and boost, and the scores. A
score is a sum, and the results are sorted by `before`. -/
structure FullTextEnv (Text Term B Score : Type) where
  tokenize : Text → List (Term × ℕ)
  enablePositions : Bool
  encode : List ℕ × B → Bytes
  /-- Four of the bytes are those of the boost. -/
  four_lt_length : ∀ p, 4 < (encode p).length
  tfIdf : ℕ → Bytes → List (PostingEntry B) → Option Snapshot → Score
  zero : Score
  add : Score → Score → Score
  before : Score → Score → Bool

def tombstoneMarker : Bytes := [255]

namespace PostingEntry

variable {Text Term B Score : Type} (env : FullTextEnv Text Term B Score) (entry : PostingEntry B)

/-- A snapshot sees the posting: its version shown is no tombstone. -/
def isVisible (snapshot : Snapshot) : Bool :=
  match VersionChain.findVisibleInline snapshot entry.versionChain with
  | some value => value ≠ tombstoneMarker
  | none => false

def new (docId : Bytes) (field : String) (positions : List ℕ) (boost : B) (txId : TransactionId) :
    PostingEntry B :=
  ⟨docId, field, positions, boost, [.new (env.encode (positions, boost)) txId]⟩

def prependVersion (positions : List ℕ) (boost : B) (txId : TransactionId) : PostingEntry B :=
  { entry with
    positions, boost
    versionChain := .new (env.encode (positions, boost)) txId :: entry.versionChain }

def prependTombstone (txId : TransactionId) : PostingEntry B :=
  { entry with versionChain := .new tombstoneMarker txId :: entry.versionChain }

/-- `commit`: the newest version gets the position, and loses the one it had. -/
def commit (lsn : ℕ) : PostingEntry B :=
  { entry with
    versionChain := match entry.versionChain with
      | [] => []
      | newest :: older => { newest with commitLsn := some lsn } :: older }

end PostingEntry

namespace FullTextIndex

variable {Text Term B Score : Type} [LinearOrder Term] (env : FullTextEnv Text Term B Score)
  (index : FullTextIndex Text Term B)

/-- An index without documents. -/
def new : FullTextIndex Text Term B := ⟨.empty, .empty, 0⟩

/-- The posting list of a term; a term without one has no entries. -/
def postings (term : Term) : List (PostingEntry B) := (index.invertedIndex.lookup term).getD []

/-- The posting list with one occurrence of its term more: a version for the first entry of the document and
the field, or a new entry. -/
def addPosting (docId : Bytes) (field : String) (position : ℕ) (boost : B) (txId : TransactionId)
    (entries : List (PostingEntry B)) : List (PostingEntry B) :=
  match entries.findIdx? fun e => e.docId = docId ∧ e.field = field with
  | some i => entries.modify i fun e =>
      e.prependVersion env (if env.enablePositions then e.positions ++ [position] else e.positions) boost txId
  | none => entries ++ [.new env docId field (if env.enablePositions then [position] else []) boost txId]

/-- The terms of a document, with the field, the position and the boost of each occurrence. -/
def newTerms (fields : List (TextField Text B)) : List (Term × String × ℕ × B) :=
  fields.flatMap fun field => (env.tokenize field.text).map fun t => (t.1, field.name, t.2, field.boost)

/-- One occurrence of a term goes to the postings. -/
def addTerm (docId : Bytes) (txId : TransactionId) (index : SortedMap Term (List (PostingEntry B)))
    (occurrence : Term × String × ℕ × B) : SortedMap Term (List (PostingEntry B)) :=
  let (term, field, position, boost) := occurrence
  index.insert term (addPosting env docId field position boost txId ((index.lookup term).getD []))

/-- `index_document`: the document is stored, then every term of every field. -/
def indexDocument (docId : Bytes) (fields : List (TextField Text B)) (txId : TransactionId) :
    FullTextIndex Text Term B where
  invertedIndex := (newTerms env fields).foldl (addTerm env docId txId) index.invertedIndex
  documentStore := index.documentStore.insert docId (fields.map fun field => (field.name, field.text))
  numDocuments :=
    if (index.documentStore.lookup docId).isSome then index.numDocuments else index.numDocuments + 1

/-- `delete_document`. A document stays in the document store. -/
def deleteDocument (docId : Bytes) (txId : TransactionId) : FullTextIndex Text Term B :=
  if (index.documentStore.lookup docId).isSome then
    { index with
      invertedIndex := index.invertedIndex.mapValues fun entries =>
        entries.map fun e => if e.docId = docId then e.prependTombstone txId else e }
  else index

/-- `update_document`: delete, then index. -/
def updateDocument (docId : Bytes) (fields : List (TextField Text B)) (txId : TransactionId) :
    FullTextIndex Text Term B :=
  (index.deleteDocument docId txId).indexDocument env docId fields txId

def commitVersions (lsn : ℕ) : FullTextIndex Text Term B :=
  { index with invertedIndex := index.invertedIndex.mapValues fun entries => entries.map (·.commit lsn) }

/-- The entry counts for the snapshot; without a snapshot all do. -/
def counts (snapshot : Option Snapshot) (entry : PostingEntry B) : Bool :=
  snapshot.all entry.isVisible

/-- The score of a document grows. -/
def bump (scores : SortedMap Bytes Score) (docId : Bytes) (score : Score) : SortedMap Bytes Score :=
  scores.insert docId (env.add ((scores.lookup docId).getD env.zero) score)

/-- The scores of the documents that have a term of the query. -/
def scores (query : Text) (snapshot : Option Snapshot) : SortedMap Bytes Score :=
  (env.tokenize query).foldl (fun scores t =>
    ((index.postings t.1).filter (counts snapshot)).foldl (fun scores entry =>
      bump env scores entry.docId (env.tfIdf index.numDocuments entry.docId (index.postings t.1) snapshot))
      scores) .empty

/-- `search_with_snapshot`, the best scores first. -/
def searchWithSnapshot (query : Text) (limit : ℕ) (snapshot : Option Snapshot) : List (Bytes × Score) :=
  ((index.scores env query snapshot).entries.mergeSort fun a b => env.before a.2 b.2).take limit

end FullTextIndex

end NanoStore.Table
