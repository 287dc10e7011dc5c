import NanoStore.Table.FullTextHistory
/-!
# The full-text index — positions

`index_document` gives each occurrence of a term to the entry of the
document and field, after the positions the entry has from every text
indexed before. So the positions of a term are those in all the texts
given for the field, one after the other (`positionsOf_execute`), and those
in the latest alone only if the texts before it have no terms.
-/

namespace NanoStore.Table.FullTextIndex

open Txn Steps List SortedMap

variable {Text Term B Score : Type} {env : FullTextEnv Text Term B Score}
  {entries : List (PostingEntry B)} {d docId : Bytes} {f field : String} {position : ℕ} {boost : B}
  {txId : TransactionId} {t : Term} {fields : List (TextField Text B)} {calls : List (FullTextCall Text B)}

/-- The positions a posting list has for a document and a field. -/
def positionsIn (d : Bytes) (f : String) (entries : List (PostingEntry B)) : List ℕ :=
  ((entries.find? fun e => e.docId = d ∧ e.field = f).map (·.positions)).getD []

theorem positionsIn_cons {e : PostingEntry B} : positionsIn d f (e :: entries) =
    if e.docId = d ∧ e.field = f then e.positions else positionsIn d f entries := by
  unfold positionsIn
  rw [find?_cons]
  split_ifs with h
  · simp [h]
  · simp [h]

/-- An occurrence comes after the positions its entry has; other entries keep theirs. -/
theorem positionsIn_addPosting (hon : env.enablePositions = true) :
    positionsIn d f (addPosting env docId field position boost txId entries) =
      positionsIn d f entries ++ if docId = d ∧ field = f then [position] else [] := by
  induction entries with
  | nil =>
    rw [addPosting, findIdx?_nil, nil_append, positionsIn_cons, hon, if_pos rfl]
    rfl
  | cons e entries ih =>
    rw [addPosting_cons]
    by_cases he : e.docId = docId ∧ e.field = field
    · -- the entry that gets the version is the first of its document and field
      rw [if_pos he, positionsIn_cons, positionsIn_cons, hon, if_pos rfl]
      simp only [PostingEntry.prependVersion, he.1, he.2]
      split_ifs
      · rfl
      · rw [append_nil]
    · rw [if_neg he, positionsIn_cons, positionsIn_cons, ih]
      split_ifs with hmine hnew
      · exact absurd ⟨hmine.1.trans hnew.1.symm, hmine.2.trans hnew.2.symm⟩ he
      · rw [append_nil]
      · rfl
      · rfl

/-! ## A document -/

variable [LinearOrder Term] {index : FullTextIndex Text Term B}

/-- The positions stored for a term of a document and field. -/
def positionsOf (index : FullTextIndex Text Term B) (d : Bytes) (f : String) (t : Term) : List ℕ :=
  positionsIn d f (index.postings t)

/-- The positions the tokenizer gives for a term of a text. -/
def occurrences (env : FullTextEnv Text Term B Score) (t : Term) (text : Text) : List ℕ :=
  ((env.tokenize text).filter fun p => p.1 = t).map (·.2)

/-- The texts of a field among those of a document, in order. -/
def texts (f : String) (fields : List (TextField Text B)) : List Text :=
  (fields.filter fun field => field.name = f).map (·.text)

/-- The texts given for a field of a document by a call. -/
def givenBy (d : Bytes) (f : String) : FullTextCall Text B → List Text
  | .indexDocument docId fields _ | .updateDocument docId fields _ => if docId = d then texts f fields else []
  | .deleteDocument _ _ | .commitVersions _ => []

/-- The texts given for a field of a document, the latest last. -/
def given (d : Bytes) (f : String) (calls : List (FullTextCall Text B)) : List Text :=
  calls.flatMap (givenBy d f)

theorem positionsIn_foldl (hon : env.enablePositions = true) (terms : List (Term × String × ℕ × B))
    (m : SortedMap Term (List (PostingEntry B))) :
    positionsIn d f (((terms.foldl (addTerm env docId txId) m).lookup t).getD []) =
      positionsIn d f ((m.lookup t).getD []) ++
        (terms.filter fun o => o.1 = t ∧ docId = d ∧ o.2.1 = f).map (·.2.2.1) := by
  induction terms generalizing m with
  | nil => simp
  | cons o terms ih =>
    rw [foldl_cons, ih, postings_addTerm, filter_cons]
    by_cases ht : t = o.1
    · rw [if_pos ht, positionsIn_addPosting hon, append_assoc]
      split_ifs <;> simp_all
    · simp [ht, Ne.symm ht]

theorem map_filter_newTerms : ((newTerms env fields).filter fun o => o.1 = t ∧ docId = d ∧ o.2.1 = f).map
    (·.2.2.1) = (if docId = d then texts f fields else []).flatMap (occurrences env t) := by
  induction fields with
  | nil => split_ifs <;> rfl
  | cons field fields ih =>
    rw [newTerms, flatMap_cons, filter_append, map_append, ← newTerms, ih]
    by_cases hd : docId = d
    · by_cases hf : field.name = f
      · simp [hd, hf, texts, occurrences, filter_map, Function.comp_def]
      · simp [hd, hf, texts, filter_map, Function.comp_def]
    · simp [hd]

theorem positionsOf_indexDocument (hon : env.enablePositions = true) :
    (index.indexDocument env docId fields txId).positionsOf d f t = index.positionsOf d f t ++
      (if docId = d then texts f fields else []).flatMap (occurrences env t) := by
  rw [← map_filter_newTerms]
  exact positionsIn_foldl hon _ _

/-- What keeps document, field and positions of every entry keeps what is stored. -/
theorem positionsIn_map {g : PostingEntry B → PostingEntry B}
    (hg : ∀ e, (g e).docId = e.docId ∧ (g e).field = e.field ∧ (g e).positions = e.positions) :
    positionsIn d f (entries.map g) = positionsIn d f entries := by
  induction entries with
  | nil => rfl
  | cons e entries ih =>
    obtain ⟨hdoc, hfield, hpos⟩ := hg e
    rw [map_cons, positionsIn_cons, positionsIn_cons, hdoc, hfield, hpos, ih]

theorem positionsOf_deleteDocument :
    (index.deleteDocument docId txId).positionsOf d f t = index.positionsOf d f t := by
  by_cases hstored : (index.documentStore.lookup docId).isSome = true
  · rw [positionsOf, postings_deleteDocument hstored]
    refine positionsIn_map fun e => ?_
    split_ifs
    · exact ⟨rfl, rfl, rfl⟩
    · exact ⟨rfl, rfl, rfl⟩
  · rw [deleteDocument, if_neg hstored]

/-! ## Runs -/

/-- A call adds the positions in the texts it gives. -/
theorem positionsOf_exec (hon : env.enablePositions = true) (call : FullTextCall Text B) :
    (exec env index call).1.positionsOf d f t =
      index.positionsOf d f t ++ (givenBy d f call).flatMap (occurrences env t) := by
  cases call with
  | indexDocument docId fields txId => exact positionsOf_indexDocument hon
  | updateDocument docId fields txId =>
    rw [exec, updateDocument, positionsOf_indexDocument hon, positionsOf_deleteDocument]
    rfl
  | deleteDocument docId txId => exact positionsOf_deleteDocument.trans (append_nil _).symm
  | commitVersions lsn =>
    have hkept : positionsIn d f ((index.postings t).map (·.commit lsn)) = index.positionsOf d f t :=
      positionsIn_map fun _ => ⟨rfl, rfl, rfl⟩
    rw [exec, positionsOf, postings_commitVersions, hkept]
    exact (append_nil _).symm

/-- The positions stored are those in every text given. -/
theorem positionsOf_execute (hon : env.enablePositions = true) :
    (execute (exec env) new calls).2.positionsOf d f t = (given d f calls).flatMap (occurrences env t) := by
  induction calls using reverseRecOn with
  | nil => rfl
  | append_singleton calls call ih =>
    rw [execute, foldl_append, given, flatMap_append, flatMap_append, ← given, ← ih]
    exact (positionsOf_exec hon call).trans (by rw [flatMap_singleton]; rfl)

theorem tokenize_eq_nil {text : Text} : (∀ t, occurrences env t text = []) ↔ env.tokenize text = [] := by
  constructor
  · intro h
    refine eq_nil_iff_forall_not_mem.mpr fun p hp => ?_
    have hnone := h p.1
    rw [occurrences, map_eq_nil_iff, filter_eq_nil_iff] at hnone
    exact hnone p hp (decide_eq_true rfl)
  · intro h t
    rw [occurrences, h]
    rfl

/-- **The positions are those in the latest texts** exactly when no text given before has a term. -/
theorem positions_latest_iff (hon : env.enablePositions = true) (calls : List (FullTextCall Text B))
    (d : Bytes) : (∀ f t, (execute (exec env) new calls).2.positionsOf d f t =
        (given d f calls).getLast?.elim [] (occurrences env t)) ↔
      ∀ f, ∀ text ∈ (given d f calls).dropLast, env.tokenize text = [] := by
  refine forall_congr' fun f => ?_
  simp only [positionsOf_execute hon]
  rcases eq_nil_or_concat (given d f calls) with hnil | ⟨before, latest, heq⟩
  · simp [hnil]
  · rw [heq, concat_eq_append, dropLast_concat, getLast?_concat]
    simp only [flatMap_append, flatMap_singleton, Option.elim_some, append_left_eq_self,
      flatMap_eq_nil_iff, ← tokenize_eq_nil]
    exact ⟨fun h text htext t => h t text htext, fun h t text htext => h text htext t⟩

theorem positions_latest_once : plainEnv.enablePositions = true ∧
    (execute (exec plainEnv) new [.indexDocument [1] [⟨"f", [1, 2, 1], ()⟩] 1]).2.positionsOf [1] "f" 1 =
      [0, 2] := by
  refine ⟨rfl, (positions_latest_iff rfl _ _).mpr ?_ "f" 1⟩
  intro f text htext
  by_cases hf : "f" = f
  · simp [given, givenBy, texts, hf] at htext
  · simp [given, givenBy, texts, hf] at htext

/-- A document of the one term 1 is updated to the same text: its position is stored twice. -/
theorem positions_stored_twice : ¬∀ f t, (execute (exec plainEnv) new
    [.indexDocument [1] [⟨"f", [1], ()⟩] 1, .updateDocument [1] [⟨"f", [1], ()⟩] 2]).2.positionsOf [1] f t =
      (given [1] f [.indexDocument [1] [⟨"f", [1], ()⟩] 1,
        .updateDocument [1] [⟨"f", [1], ()⟩] 2]).getLast?.elim [] (occurrences plainEnv t) := by
  intro h
  have htwice := h "f" 1
  revert htwice
  decide +kernel

end NanoStore.Table.FullTextIndex
