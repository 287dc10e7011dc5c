import NanoStore.Lsm.History
/-!
# The LSM tree — concurrent edits of the manifest

`Manifest::apply_edits` clones the current version under the read lock and
applies its edits to the clone, writes the pages of the manifest under no
lock, and then takes the write lock and puts the clone in the place of
whatever is current. What others install or allocate between the two locks
is lost, and an identifier can be handed out twice.
-/

namespace NanoStore.Lsm

open Steps Function List

/-- `Version`, with its log number. -/
structure ManifestVersion extends TreeVersion where
  logNumber : ℕ

/-- `VersionEdit`, with the edits of the two numbers. -/
inductive ManifestEdit
  | file (edit : VersionEdit)
  | setNextSstableId (nextId : ℕ)
  | setLogNumber (logNumber : ℕ)

namespace ManifestVersion

variable (version : ManifestVersion)

def new (numLevels : ℕ) : ManifestVersion := ⟨.new numLevels, 0⟩

/-- `apply_edit`. -/
def apply : ManifestEdit → Except LsmError ManifestVersion
  | .file edit => (version.toTreeVersion.apply edit).map fun tree => { version with toTreeVersion := tree }
  | .setNextSstableId nextId => .ok { version with nextSstableId := nextId }
  | .setLogNumber logNumber => .ok { version with logNumber }

/-- The loop of `apply_edits`. -/
def applyEdits (edits : List ManifestEdit) : Except LsmError ManifestVersion := edits.foldlM apply version

/-- `allocate_sstable_id`. -/
def allocateSstableId : ManifestVersion × ℕ :=
  ({ version with nextSstableId := version.nextSstableId + 1 }, version.nextSstableId)

end ManifestVersion

/-- A call of `apply_edits` between its two locks: the version it cloned, and what its edits made of it. -/
structure Editing where
  base : ManifestVersion
  edits : List ManifestEdit
  version : ManifestVersion
  applied : base.applyEdits edits = .ok version

/-- `Manifest`, with the calls under way. -/
structure Manifest (ι : Type) where
  current : ManifestVersion
  editing : ι → Option Editing

/-- What happens under one lock. -/
inductive ManifestCall (ι : Type)
  | clone (c : ι) (edits : List ManifestEdit)
  /-- After `write_manifest` has succeeded or failed. -/
  | install (c : ι) (written : Bool)
  | allocateSstableId

inductive ManifestAnswer
  | cloned
  /-- The call returns `Ok`. -/
  | installed
  | failed (e : LsmError)
  | notWritten
  | allocated (id : ℕ)
  /-- No such call is under way, or it is already. -/
  | ignored

/-- A step and its answer. -/
abbrev ManifestEvent (ι : Type) := ManifestCall ι × ManifestAnswer

namespace Manifest

variable {ι : Type} [DecidableEq ι] (m : Manifest ι)

/-- `apply_edits` up to the write of the pages. -/
def clone (c : ι) (edits : List ManifestEdit) : Manifest ι × ManifestAnswer :=
  if (m.editing c).isSome then (m, .ignored)
  else match h : m.current.applyEdits edits with
    | .error e => (m, .failed e)
    | .ok version =>
      ({ m with editing := update m.editing c (some ⟨m.current, edits, version, h⟩) }, .cloned)

/-- The rest of `apply_edits`. -/
def install (c : ι) (written : Bool) : Manifest ι × ManifestAnswer :=
  match m.editing c, written with
  | none, _ => (m, .ignored)
  | some _, false => ({ m with editing := update m.editing c none }, .notWritten)
  | some e, true => (⟨e.version, update m.editing c none⟩, .installed)

/-- One call of the manifest. -/
def exec : ManifestCall ι → Manifest ι × ManifestAnswer
  | .clone c edits => m.clone c edits
  | .install c written => m.install c written
  | .allocateSstableId =>
    ({ m with current := m.current.allocateSstableId.1 }, .allocated m.current.allocateSstableId.2)

/-! ## The calls one after the other -/

/-- The edits of the call that cloned last under a name. -/
def editsOf (c : ι) : List (ManifestEvent ι) → List ManifestEdit
  | [] => []
  | (.clone c' edits, .cloned) :: trace => if c' = c then edits else editsOf c trace
  | _ :: trace => editsOf c trace

/-- The version after the allocations and the edits of the calls that returned `Ok`, each at once and in
the order of the returns. -/
def replay (init : ManifestVersion) : List (ManifestEvent ι) → Except LsmError ManifestVersion
  | [] => .ok init
  | (.install c _, .installed) :: trace => replay init trace >>= (·.applyEdits (editsOf c trace))
  | (.allocateSstableId, _) :: trace => (·.allocateSstableId.1) <$> replay init trace
  | _ :: trace => replay init trace

/-- The identifiers that were handed out. -/
def allocated (trace : List (ManifestEvent ι)) : List ℕ :=
  trace.filterMap fun event => match event.2 with
    | .allocated id => some id
    | _ => none

/-- A call installs only while the version it cloned is current, and does not lower the next
identifier. -/
def Undisturbed (_ : List (ManifestEvent ι)) (m : Manifest ι) : ManifestCall ι → Prop
  | .install c true => ∀ e, m.editing c = some e →
      e.base = m.current ∧ e.base.nextSstableId ≤ e.version.nextSstableId
  | _ => True

/-- The calls under way have their edits, and the identifiers that were handed out are behind the next. -/
structure Replays (init : ManifestVersion) (trace : List (ManifestEvent ι)) (m : Manifest ι) : Prop where
  current : replay init trace = .ok m.current
  editing : ∀ c e, m.editing c = some e → editsOf c trace = e.edits
  lt : ∀ id ∈ allocated trace, id < m.current.nextSstableId
  nodup : (allocated trace).Nodup

variable {m} {init : ManifestVersion} {trace : List (ManifestEvent ι)}

section

variable (h : Replays init trace m)
include h

theorem Replays.clone {c : ι} {edits : List ManifestEdit} :
    Replays init ((.clone c edits, (m.clone c edits).2) :: trace) (m.clone c edits).1 := by
  unfold Manifest.clone
  split_ifs with hbusy
  · exact { h with }
  · split
    · exact { h with }
    · refine { h with editing := fun c' e he => ?_ }
      dsimp only at he
      by_cases hc : c' = c
      · subst hc
        rw [update_self] at he
        cases he
        exact if_pos rfl
      · rw [update_of_ne hc] at he
        exact (if_neg (Ne.symm hc)).trans (h.editing c' e he)

/-- **The edits of an undisturbed call are applied to what all others left.** -/
theorem Replays.install {c : ι} {written : Bool}
    (hguard : Undisturbed trace m (.install c written)) :
    Replays init ((.install c written, (m.install c written).2) :: trace) (m.install c written).1 := by
  have hothers : ∀ c' e, update m.editing c none c' = some e → editsOf c' trace = e.edits := by
    intro c' e he
    by_cases hc : c' = c
    · rw [hc, update_self] at he
      cases he
    · rw [update_of_ne hc] at he
      exact h.editing c' e he
  unfold Manifest.install
  cases hcall : m.editing c with
  | none => exact { h with }
  | some e =>
    cases written with
    | false => exact { h with editing := hothers }
    | true =>
      obtain ⟨hbase, hnext⟩ := hguard e hcall
      refine { h with current := ?_, editing := hothers, lt := fun id hid => ?_ }
      · show replay init trace >>= _ = _
        rw [h.current, h.editing c e hcall, ← hbase]
        exact e.applied
      · have hlt := h.lt id hid
        rw [← hbase] at hlt
        exact Nat.lt_of_lt_of_le hlt hnext

theorem Replays.allocateSstableId :
    Replays init ((.allocateSstableId, (m.exec .allocateSstableId).2) :: trace)
      (m.exec .allocateSstableId).1 := by
  refine ⟨?_, h.editing, fun id hid => ?_, nodup_cons.mpr ⟨fun hid => Nat.lt_irrefl _ (h.lt _ hid), h.nodup⟩⟩
  · show _ <$> replay init trace = _
    rw [h.current]
    rfl
  · rcases mem_cons.mp hid with rfl | hid
    · exact Nat.lt_succ_self _
    · exact Nat.lt_succ_of_lt (h.lt id hid)

end

/-- **After every run of calls that are not disturbed, the version is what the edits of all calls that
returned `Ok` make of the first one, and no identifier was handed out twice.** -/
theorem replay_of_run (hrun : Run exec Undisturbed ⟨init, fun _ => none⟩ trace m) :
    replay init trace = .ok m.current ∧ (allocated trace).Nodup := by
  have h : Replays init trace m := by
    refine hrun.invariant ⟨rfl, ?_, nofun, .nil⟩ ?_
    · intro c e he
      cases he
    · intro trace m call h hguard
      cases call with
      | clone c edits => exact h.clone
      | install c written => exact h.install hguard
      | allocateSstableId => exact h.allocateSstableId
  exact ⟨h.current, h.nodup⟩

/-- A sorted table with one key. -/
def oneKey (id : ℕ) : FileMetadata :=
  .ofEntries smallMemtables id 0 (ChainMap.empty.insert [1] [5] 1 (some 1)) (by decide)

/-- Two files are added by calls one after the other, an identifier is allocated after each, and a third
call overlaps with the second and is not written. -/
theorem replay_of_run_added : ∃ trace m, Run exec Undisturbed ⟨.new 1, fun _ : ℕ => none⟩ trace m ∧
    m.current.files.map FileMetadata.id = [7, 8] ∧ allocated trace = [2, 1] ∧
    replay (.new 1) trace = .ok m.current ∧ (allocated trace).Nodup := by
  have hguarded : Guarded exec Undisturbed [] (⟨.new 1, fun _ => none⟩ : Manifest ℕ)
      [.clone 0 [.file (.addSstable (oneKey 7))], .install 0 true, .allocateSstableId,
        .clone 1 [.file (.addSstable (oneKey 8))], .clone 2 [.file (.addSstable (oneKey 9))], .install 2 false,
        .install 1 true, .allocateSstableId] := by
    refine ⟨trivial, fun e he => ?_, trivial, trivial, trivial, trivial, fun e he => ?_, trivial, trivial⟩
    · cases he
      exact ⟨rfl, le_rfl⟩
    · cases he
      exact ⟨rfl, le_rfl⟩
  exact ⟨_, _, hguarded.run, rfl, rfl, replay_of_run hguarded.run⟩

/-- **Two calls overlap: both return `Ok`, the file of the first is not in the version, and the
identifier that was allocated between is allocated again.** -/
theorem overlapping_edits_lost : ∃ trace m, Run exec anyCall ⟨.new 1, fun _ : ℕ => none⟩ trace m ∧
    trace.map Prod.fst = [.allocateSstableId, .install 1 true, .install 0 true, .allocateSstableId,
      .clone 1 [.file (.addSstable (oneKey 8))], .clone 0 [.file (.addSstable (oneKey 7))]] ∧
    (ManifestCall.install 0 true, ManifestAnswer.installed) ∈ trace ∧
    m.current.files.map FileMetadata.id = [8] ∧ allocated trace = [1, 1] :=
  ⟨_, _, run_execute exec _ [.clone 0 [.file (.addSstable (oneKey 7))],
    .clone 1 [.file (.addSstable (oneKey 8))], .allocateSstableId, .install 0 true, .install 1 true,
    .allocateSstableId], rfl, .tail _ (.tail _ (.head _)), rfl, rfl⟩

end Manifest

end NanoStore.Lsm
