import NanoStore.Table.Art
/-!
# The adaptive radix tree — inner nodes as maps

Whatever its kind, an inner node is a map from bytes to children. Its
array is arranged: no two bytes share a slot, and what is counted is what
can be found. Adding a child for a byte that has none changes the map at
that byte only, and so does moving the children to the next kind first.
-/

namespace NanoStore.Table

open Function List

namespace InnerNode

/-- The edges that lead to a child. -/
def occupied (node : InnerNode) : Finset Byte :=
  Finset.univ.filter fun byte => (node.findChild byte).isEmpty = false

/-- No two bytes share a slot, the children are in the slots of bytes and, except in a `Node256`, the slot
of a byte has a child. -/
structure Arranged (node : InnerNode) : Prop where
  apart : ∀ b b' i, node.kind.slot node.count b = some i → node.kind.slot node.count b' = some i → b = b'
  reached : ∀ i, (node.children i).isEmpty = false → ∃ b, node.kind.slot node.count b = some i
  full : node.kind ≠ .node256 → ∀ b i, node.kind.slot node.count b = some i → (node.children i).isEmpty = false

/-- The node is a map with `count` entries. -/
structure Proper (node : InnerNode) : Prop where
  count_eq : node.count = node.occupied.card
  count_le : node.count ≤ node.kind.capacity
  arranged : node.Arranged

variable {node : InnerNode} {byte b : Byte} {child : ArtNode}

theorem mem_occupied : b ∈ node.occupied ↔ (node.findChild b).isEmpty = false := by
  simp [occupied]

/-! ## Slots -/

variable {keys : ℕ → Byte} {i count : ℕ}

theorem slot_listed
    (h : ((range count).find? fun i => keys i = byte) = some i) : i < count ∧ keys i = byte := by
  have hmem := mem_range.mp (mem_of_find?_eq_some h)
  have hkey := find?_some h
  exact ⟨hmem, of_decide_eq_true hkey⟩

theorem findChild_of_slot (h : node.kind.slot node.count byte = some i) :
    node.findChild byte = node.children i := by
  rw [findChild, h]

theorem findChild_of_none (h : node.kind.slot node.count byte = none) : node.findChild byte = .empty := by
  rw [findChild, h]

theorem exists_slot (h : (node.findChild byte).isEmpty = false) :
    ∃ i, node.kind.slot node.count byte = some i := by
  cases hslot : node.kind.slot node.count byte with
  | none =>
    rw [findChild_of_none hslot] at h
    exact absurd h Bool.noConfusion
  | some i => exact ⟨i, rfl⟩

/-! ## A child replaced -/

theorem Proper.of_isEmpty (h : node.Proper) {children : ℕ → ArtNode}
    (hemp : ∀ i, (children i).isEmpty = (node.children i).isEmpty) : { node with children }.Proper := by
  refine ⟨h.count_eq.trans (congrArg Finset.card (Finset.ext fun b => ?_)), h.count_le, ?_⟩
  · rw [mem_occupied, mem_occupied]
    unfold findChild
    cases node.kind.slot node.count b with
    | none => exact Iff.rfl
    | some i => exact iff_of_eq (congrArg (· = false) (hemp i).symm)
  · obtain ⟨hapart, hreached, hfull⟩ := h.arranged
    simp only [← hemp] at hreached hfull
    exact ⟨hapart, hreached, hfull⟩

/-- **Replacing a child changes the map at its byte only.** -/
theorem Proper.replace (h : node.Proper) (hslot : node.kind.slot node.count byte = some i)
    (hold : (node.children i).isEmpty = false) (hkid : child.isEmpty = false) :
    { node with children := update node.children i child }.Proper ∧
      ∀ b, { node with children := update node.children i child }.findChild b =
        if b = byte then child else node.findChild b := by
  refine ⟨h.of_isEmpty fun j => ?_, fun b => ?_⟩
  · by_cases hj : j = i
    · rw [hj, update_self, hkid, hold]
    · rw [update_of_ne hj]
  · unfold findChild
    cases hb : node.kind.slot node.count b with
    | none =>
      have hne : b ≠ byte := fun heq => by rw [heq, hslot] at hb; cases hb
      simp [if_neg hne]
    | some j =>
      by_cases heq : b = byte
      · rw [heq, hslot] at hb
        cases hb
        simp [if_pos heq, update_self]
      · have hij : j ≠ i := fun hij => heq (h.arranged.apart _ _ _ (hij ▸ hb) hslot)
        simp [if_neg heq, update_of_ne hij]

/-! ## A child added -/

/-- What adding a child comes to: the map with one more entry. -/
structure Added (node : InnerNode) (byte : Byte) (child : ArtNode) (node' : InnerNode) : Prop where
  proper : node'.Proper
  nodePrefix : node'.nodePrefix = node.nodePrefix
  findChild : ∀ b, node'.findChild b = if b = byte then child else node.findChild b

theorem count_of_findChild {node' : InnerNode} (hcount : node.count = node.occupied.card)
    (hnew : node'.count = node.count + 1) (hfree : node.findChild byte = .empty)
    (hkid : child.isEmpty = false)
    (hfind : ∀ b, node'.findChild b = if b = byte then child else node.findChild b) :
    node'.count = node'.occupied.card := by
  have hins : node'.occupied = insert byte node.occupied := by
    refine Finset.ext fun b => ?_
    rw [mem_occupied, Finset.mem_insert, mem_occupied, hfind]
    by_cases hb : b = byte
    · rw [if_pos hb]
      exact iff_of_true hkid (.inl hb)
    · rw [if_neg hb, or_iff_right hb]
  have hfresh : byte ∉ node.occupied := by
    rw [mem_occupied, hfree]
    exact Bool.noConfusion
  rw [hins, Finset.card_insert_of_notMem hfresh, hnew, hcount]

theorem slot_append (hnone : ((range count).find? fun i => keys i = byte) = none) :
    ((range (count + 1)).find? fun i => update keys count byte i = b) =
      if b = byte then some count else (range count).find? fun i => keys i = b := by
  have hbefore : ((range count).find? fun i => decide (update keys count byte i = b)) =
      (range count).find? fun i => decide (keys i = b) := by
    refine find?_congr fun i hi => ?_
    have hne : i ≠ count := (mem_range.mp hi).ne
    rw [update_of_ne hne]
  rw [range_succ, find?_append, hbefore, find?_singleton, update_self]
  by_cases hb : b = byte
  · rw [if_pos hb, hb, hnone, decide_eq_true rfl]
    rfl
  · rw [if_neg hb, decide_eq_false (Ne.symm hb)]
    exact Option.or_none

theorem Arranged.slot_eq_none (h : node.Arranged) (hkind : node.kind ≠ .node256)
    (hfree : node.findChild byte = .empty) : node.kind.slot node.count byte = none := by
  cases hbyte : node.kind.slot node.count byte with
  | none => rfl
  | some j =>
    have hfull := h.full hkind byte j hbyte
    rw [← findChild_of_slot hbyte, hfree] at hfull
    exact Bool.noConfusion hfull

variable {kind : ArtKind}

/-- **A child put in a slot that no byte has.** -/
theorem Arranged.place (h : node.Arranged) (hkind : node.kind ≠ .node256)
    (hnone : node.kind.slot node.count byte = none) (hkid : child.isEmpty = false)
    (hunused : ∀ b, node.kind.slot node.count b ≠ some i)
    (hslot : ∀ b, kind.slot (node.count + 1) b = if b = byte then some i else node.kind.slot node.count b) :
    Arranged ⟨node.nodePrefix, kind, node.count + 1, update node.children i child⟩ ∧
      ∀ b, findChild ⟨node.nodePrefix, kind, node.count + 1, update node.children i child⟩ b =
        if b = byte then child else node.findChild b := by
  have hother : ∀ {b j}, node.kind.slot node.count b = some j → j ≠ i := fun hb hij => hunused _ (hij ▸ hb)
  refine ⟨⟨fun b b' j hb hb' => ?_, fun j hj => ?_, fun _ b j hb => ?_⟩, fun b => ?_⟩
  · rw [hslot] at hb hb'
    split_ifs at hb hb' with heq heq' heq'
    · rw [heq, heq']
    · exact absurd (Option.some.inj hb).symm (hother hb')
    · exact absurd (Option.some.inj hb').symm (hother hb)
    · exact h.apart b b' j hb hb'
  · by_cases heq : j = i
    · exact ⟨byte, by rw [hslot, if_pos rfl, heq]⟩
    · simp only [update_of_ne heq] at hj
      obtain ⟨b, hb⟩ := h.reached j hj
      have hne : b ≠ byte := fun hne => by rw [hne, hnone] at hb; cases hb
      exact ⟨b, by rw [hslot, if_neg hne, hb]⟩
  · rw [hslot] at hb
    split_ifs at hb with heq
    · cases hb
      simpa only [update_self]
    · simp only [update_of_ne (hother hb)]
      exact h.full hkind b j hb
  · unfold findChild
    simp only [hslot]
    split_ifs with heq
    · simp [update_self]
    · cases hb : node.kind.slot node.count b with
      | none => rfl
      | some j => simp [update_of_ne (hother hb)]

variable {index : Byte → Option ℕ}

/-- **A `Node48` that is not full has a free slot**: every slot in use is the slot of a byte. -/
theorem Proper.exists_free (h : node.Proper) (hkind : node.kind = .node48 index) (hroom : node.count < 48) :
    ∃ i, ((range 48).find? fun i => (node.children i).isEmpty) = some i := by
  cases hfind : (range 48).find? fun i => (node.children i).isEmpty with
  | some i => exact ⟨i, rfl⟩
  | none =>
    -- with every slot in use, the bytes that have a child reach all 48 slots
    have hreach : Finset.range 48 ⊆ node.occupied.image fun byte => (index byte).getD 0 := by
      intro i hi
      have hnone := find?_eq_none.mp hfind i (mem_range.mpr (Finset.mem_range.mp hi))
      have hfull : (node.children i).isEmpty = false := by simpa using hnone
      obtain ⟨byte, hbyte⟩ := h.arranged.reached i hfull
      refine Finset.mem_image.mpr ⟨byte, ?_, ?_⟩
      · rwa [mem_occupied, findChild_of_slot hbyte]
      · rw [hkind] at hbyte
        exact congrArg (Option.getD · 0) hbyte
    have hcard := (Finset.card_le_card hreach).trans Finset.card_image_le
    rw [Finset.card_range, ← h.count_eq] at hcard
    omega

/-- `add_child` succeeds on a node that is not full, and the array is arranged as before. -/
theorem Proper.addChild_arranged (h : node.Proper) (hroom : node.count < node.kind.capacity)
    (hfree : node.findChild byte = .empty) (hkid : child.isEmpty = false) :
    ∃ node', node.addChild byte child = some node' ∧ node'.nodePrefix = node.nodePrefix ∧
      node'.count = node.count + 1 ∧ node'.kind.capacity = node.kind.capacity ∧ node'.Arranged ∧
      ∀ b, node'.findChild b = if b = byte then child else node.findChild b := by
  have harranged := h.arranged
  obtain ⟨nodePrefix, kind, count, children⟩ := node
  cases kind with
  | node4 keys | node16 keys =>
    have hnone := harranged.slot_eq_none nofun hfree
    exact ⟨_, if_neg (not_le.mpr hroom), rfl, rfl, rfl, harranged.place nofun hnone hkid
      (fun b hb => (slot_listed hb).1.ne rfl) fun b => slot_append hnone⟩
  | node48 index =>
    obtain ⟨i, hfound⟩ := h.exists_free rfl hroom
    have hemp := find?_some hfound
    refine ⟨_, (if_neg (not_le.mpr hroom)).trans (congrArg _ hfound), rfl, rfl, rfl,
      harranged.place nofun (harranged.slot_eq_none nofun hfree) hkid (fun b hb => ?_) fun b => update_apply ..⟩
    exact absurd ((harranged.full nofun b i hb).symm.trans hemp) Bool.noConfusion
  | node256 =>
    refine ⟨_, if_pos (ArtNode.isEmpty_iff.mpr hfree), rfl, rfl, rfl,
      ⟨harranged.apart, fun i hi => ?_, fun hne => absurd rfl hne⟩, fun b => ?_⟩
    · by_cases heq : i = byte
      · exact ⟨byte, congrArg some heq.symm⟩
      · simp only [update_of_ne heq] at hi
        exact harranged.reached i hi
    · by_cases hb : b = byte
      · rw [if_pos hb, hb]
        exact update_self ..
      · rw [if_neg hb]
        exact update_of_ne (fun hval => hb (Fin.ext hval)) ..

/-- **`add_child` adds an entry to a node that is not full.** -/
theorem Proper.addChild (h : node.Proper) (hroom : node.count < node.kind.capacity)
    (hfree : node.findChild byte = .empty) (hkid : child.isEmpty = false) :
    ∃ node', node.addChild byte child = some node' ∧ Added node byte child node' ∧
      node'.count = node.count + 1 ∧ node'.kind.capacity = node.kind.capacity := by
  obtain ⟨node', hsome, hpre, hcount, hcap, harranged, hfind⟩ :=
    h.addChild_arranged hroom hfree hkid
  have hle : node'.count ≤ node'.kind.capacity := by
    rw [hcount, hcap]
    exact hroom
  have heq := count_of_findChild h.count_eq hcount hfree hkid hfind
  exact ⟨node', hsome, ⟨⟨heq, hle, harranged⟩, hpre, hfind⟩, hcount, hcap⟩

/-! ## Nodes filled anew -/

theorem capacity_cleared : kind.cleared.capacity = kind.capacity := by
  cases kind with
  | node4 keys | node16 keys | node48 index | node256 => rfl

theorem proper_new (nodePrefix : Bytes) (kind : ArtKind) :
    (new nodePrefix kind).Proper ∧ ∀ b, (new nodePrefix kind).findChild b = .empty := by
  have hfind : ∀ b, (new nodePrefix kind).findChild b = .empty := by
    intro b
    cases hslot : (new nodePrefix kind).kind.slot (new nodePrefix kind).count b with
    | none => exact findChild_of_none hslot
    | some i => exact findChild_of_slot hslot
  have hnone : (new nodePrefix kind).occupied = ∅ := by
    refine Finset.filter_false_of_mem fun b _ => ?_
    rw [hfind b]
    exact Bool.noConfusion
  refine ⟨⟨by rw [hnone]; rfl, Nat.zero_le _, ?_⟩, hfind⟩
  refine ⟨fun b b' i hb hb' => ?_, nofun, fun hne b i hb => ?_⟩
  · cases kind with
    | node4 keys | node16 keys | node48 index => cases hb
    | node256 => exact Fin.ext ((Option.some.inj hb).trans (Option.some.inj hb').symm)
  · cases kind with
    | node4 keys | node16 keys | node48 index => cases hb
    | node256 => exact absurd rfl hne

variable {entries : List (Byte × ArtNode)}

/-- **Adding one entry after the other.** -/
theorem Proper.addAll (h : node.Proper)
    (hnd : (entries.map Prod.fst).Nodup) (hfree : ∀ entry ∈ entries, node.findChild entry.1 = .empty)
    (hfull : ∀ entry ∈ entries, entry.2.isEmpty = false)
    (hroom : node.count + entries.length ≤ node.kind.capacity) :
    (node.addAll entries).Proper ∧ (node.addAll entries).nodePrefix = node.nodePrefix ∧
      (node.addAll entries).count = node.count + entries.length ∧
      (node.addAll entries).kind.capacity = node.kind.capacity ∧
      (∀ entry ∈ entries, (node.addAll entries).findChild entry.1 = entry.2) ∧
      ∀ b, b ∉ entries.map Prod.fst → (node.addAll entries).findChild b = node.findChild b := by
  induction entries generalizing node with
  | nil => exact ⟨h, rfl, rfl, rfl, nofun, fun _ _ => rfl⟩
  | cons entry entries ih =>
    rw [map_cons, nodup_cons] at hnd
    rw [length_cons] at hroom
    obtain ⟨node', hsome, hadded, hcount, hcap⟩ := h.addChild (by omega)
      (hfree entry mem_cons_self) (hfull entry mem_cons_self)
    have hstep : node.addAll (entry :: entries) = node'.addAll entries := by
      rw [InnerNode.addAll, foldl_cons, add, hsome]
      rfl
    have hfree' : ∀ e ∈ entries, node'.findChild e.1 = .empty := by
      intro e he
      have hne : e.1 ≠ entry.1 := fun heq => hnd.1 (heq ▸ mem_map_of_mem he)
      rw [hadded.findChild, if_neg hne]
      exact hfree e (mem_cons_of_mem _ he)
    obtain ⟨hproper, hpre, hcount', hcap', hfound, hother⟩ := ih hadded.proper hnd.2 hfree'
      (fun e he => hfull e (mem_cons_of_mem _ he)) (by omega)
    rw [hstep]
    refine ⟨hproper, hpre.trans hadded.nodePrefix, ?_, hcap'.trans hcap, fun e he => ?_, fun b hb => ?_⟩
    · rw [hcount', hcount, length_cons]
      omega
    · rcases mem_cons.mp he with rfl | he
      · rw [hother e.1 hnd.1, hadded.findChild, if_pos rfl]
      · exact hfound e he
    · rw [map_cons, mem_cons, not_or] at hb
      rw [hother b hb.2, hadded.findChild, if_neg hb.1]

variable {f : ArtNode → ArtNode}

/-- The list has the image of the child for each byte that has a child. -/
structure Lists (node : InnerNode) (f : ArtNode → ArtNode) (entries : List (Byte × ArtNode)) : Prop where
  nodup : (entries.map Prod.fst).Nodup
  mem : ∀ b c, (b, c) ∈ entries ↔ (node.findChild b).isEmpty = false ∧ c = f (node.findChild b)

/-- **A node of any kind that has room, filled with the images of the children**, is the image of the
map. The images of children are children. -/
theorem Proper.refill (h : node.Proper) (hcap : node.count ≤ kind.capacity)
    (hf : ∀ c, (f c).isEmpty = c.isEmpty) (hlists : node.Lists f entries) :
    { (new node.nodePrefix kind).addAll entries with count := node.count }.Proper ∧
      ((new node.nodePrefix kind).addAll entries).nodePrefix = node.nodePrefix ∧
      ((new node.nodePrefix kind).addAll entries).kind.capacity = kind.capacity ∧
      ∀ b, { (new node.nodePrefix kind).addAll entries with count := node.count }.findChild b =
        f (node.findChild b) := by
  obtain ⟨hnd, hents⟩ := hlists
  have hbytes : ∀ b, b ∈ entries.map Prod.fst ↔ (node.findChild b).isEmpty = false := by
    intro b
    constructor
    · intro hb
      obtain ⟨⟨b, c⟩, hmem, rfl⟩ := mem_map.mp hb
      exact ((hents b c).mp hmem).1
    · intro hfull
      exact mem_map.mpr ⟨(b, f (node.findChild b)), (hents b _).mpr ⟨hfull, rfl⟩, rfl⟩
  have hlen : entries.length = node.count := by
    have hoccupied : (entries.map Prod.fst).toFinset = node.occupied := by
      refine Finset.ext fun b => ?_
      rw [mem_toFinset, hbytes, mem_occupied]
    rw [h.count_eq, ← hoccupied, toFinset_card_of_nodup hnd, length_map]
  obtain ⟨hnew, hnone⟩ := proper_new node.nodePrefix kind
  have hfull : ∀ entry ∈ entries, entry.2.isEmpty = false := by
    rintro ⟨b, c⟩ hmem
    obtain ⟨hb, rfl⟩ := (hents b c).mp hmem
    exact (hf _).trans hb
  have hroom : (new node.nodePrefix kind).count + entries.length ≤
      (new node.nodePrefix kind).kind.capacity := by
    rw [hlen, new, capacity_cleared]
    exact (Nat.zero_add _).trans_le hcap
  obtain ⟨hproper, hpre, hcount, hsame, hfound, hother⟩ :=
    hnew.addAll hnd (fun entry _ => hnone entry.1) hfull hroom
  -- the count that is set at the end is the number of children that were added
  have hset : ((new node.nodePrefix kind).addAll entries).count = node.count := by
    rw [hcount, hlen]
    exact Nat.zero_add _
  have heq : { (new node.nodePrefix kind).addAll entries with count := node.count } =
      (new node.nodePrefix kind).addAll entries := by
    rw [← hset]
  rw [heq]
  refine ⟨hproper, hpre, hsame.trans capacity_cleared, fun b => ?_⟩
  by_cases hb : (node.findChild b).isEmpty = false
  · exact hfound (b, f (node.findChild b)) ((hents b _).mpr ⟨hb, rfl⟩)
  · rw [hother b (fun hmem => hb ((hbytes b).mp hmem)), hnone]
    rw [Bool.not_eq_false] at hb
    have hemp := ArtNode.isEmpty_iff.mp ((hf _).trans hb)
    exact hemp.symm

/-- The bytes `grow` collects are those that have a child, and maybe more. -/
theorem mem_bytes (h : (node.findChild b).isEmpty = false) : b ∈ node.bytes := by
  obtain ⟨i, hslot⟩ := exists_slot h
  rw [findChild_of_slot hslot] at h
  obtain ⟨nodePrefix, kind, count, children⟩ := node
  cases kind with
  | node4 keys | node16 keys =>
    obtain ⟨hi, hkey⟩ := slot_listed hslot
    exact mem_map.mpr ⟨i, mem_range.mpr hi, hkey⟩
  | node48 index => exact mem_filter.mpr ⟨mem_finRange b, Option.isSome_iff_exists.mpr ⟨i, hslot⟩⟩
  | node256 =>
    cases hslot
    exact mem_filter.mpr ⟨mem_finRange b, congrArg not h⟩

theorem nodup_eraseDups {bytes : List Byte} : bytes.eraseDups.Nodup := by
  match bytes with
  | [] => exact nodup_nil
  | byte :: rest =>
    rw [eraseDups_cons, nodup_cons, mem_eraseDups]
    have hshorter := length_filter_le (fun b => !b == byte) rest
    exact ⟨by simp, nodup_eraseDups⟩
termination_by bytes.length

theorem lists_taken : node.Lists id node.taken := by
  constructor
  · have hmap : ((node.bytes.eraseDups.map fun byte => (byte, node.findChild byte)).map Prod.fst).Nodup := by
      rw [map_map]
      exact (map_id _).symm ▸ nodup_eraseDups
    exact hmap.sublist (filter_sublist.map _)
  · intro b c
    rw [taken, mem_filter, mem_map]
    constructor
    · rintro ⟨⟨byte, hbyte, heq⟩, hfull⟩
      cases heq
      exact ⟨by simpa using hfull, rfl⟩
    · rintro ⟨hfull, rfl⟩
      exact ⟨⟨b, mem_eraseDups.mpr (mem_bytes hfull), rfl⟩, by simpa using hfull⟩

theorem capacity_wider (h : kind.capacity < 256) : kind.capacity < kind.wider.capacity := by
  cases kind with
  | node4 keys => exact (by decide : 4 < 16)
  | node16 keys => exact (by decide : 16 < 48)
  | node48 index => exact (by decide : 48 < 256)
  | node256 => exact absurd h (lt_irrefl 256)

theorem Proper.count_lt (h : node.Proper) (hfree : node.findChild byte = .empty) : node.count < 256 := by
  have hfresh : byte ∉ node.occupied := by
    rw [mem_occupied, hfree]
    exact Bool.noConfusion
  have hcard := Finset.card_lt_univ_of_notMem hfresh
  rwa [Fintype.card_fin, ← h.count_eq] at hcard

/-- **`grow` keeps the map of a full node**, and makes room for another child. -/
theorem Proper.grow (h : node.Proper) (hfull : node.kind.capacity ≤ node.count)
    (hfree : node.findChild byte = .empty) : node.grow.Proper ∧ node.grow.nodePrefix = node.nodePrefix ∧
      node.grow.count < node.grow.kind.capacity ∧ ∀ b, node.grow.findChild b = node.findChild b := by
  have hwide : node.kind.capacity < 256 := hfull.trans_lt (h.count_lt hfree)
  have hroom : node.count < node.kind.wider.capacity := h.count_le.trans_lt (capacity_wider hwide)
  have hgrow : node.grow =
      { (new node.nodePrefix node.kind.wider).addAll node.taken with count := node.count } := by
    unfold InnerNode.grow
    split
    · rename_i hkind
      rw [hkind] at hwide
      exact absurd hwide (lt_irrefl 256)
    · rfl
  obtain ⟨hproper, hpre, hcap, hfind⟩ := h.refill hroom.le (fun _ => rfl) lists_taken
  rw [hgrow]
  exact ⟨hproper, hpre, hroom.trans_eq hcap.symm, hfind⟩

theorem addChild_full (hfull : node.kind.capacity ≤ node.count) (hwide : node.kind.capacity < 256) :
    node.addChild byte child = none := by
  unfold InnerNode.addChild
  cases hkind : node.kind with
  | node4 keys | node16 keys | node48 index =>
    rw [hkind] at hfull
    exact if_pos hfull
  | node256 =>
    rw [hkind] at hwide
    exact absurd hwide (lt_irrefl 256)

/-- **A child is added, whether the node is full or not.** -/
theorem Proper.put (h : node.Proper) (hfree : node.findChild byte = .empty)
    (hkid : child.isEmpty = false) : Added node byte child (node.put byte child) := by
  unfold InnerNode.put
  by_cases hroom : node.count < node.kind.capacity
  · obtain ⟨node', hsome, hadded, -⟩ := h.addChild hroom hfree hkid
    rw [hsome]
    exact hadded
  · have hfull := not_lt.mp hroom
    have hnone : node.addChild byte child = none :=
      addChild_full hfull (hfull.trans_lt (h.count_lt hfree))
    obtain ⟨hgrown, hpre, hroom', hfind⟩ := h.grow hfull hfree
    obtain ⟨node', hsome, hadded, -⟩ := hgrown.addChild hroom' ((hfind byte).trans hfree) hkid
    simp only [hnone, add, hsome, Option.getD_some]
    refine ⟨hadded.proper, hadded.nodePrefix.trans hpre, fun b => ?_⟩
    rw [hadded.findChild, hfind]

theorem Proper.add (h : node.Proper) (hroom : node.count < node.kind.capacity)
    (hfree : node.findChild byte = .empty) (hkid : child.isEmpty = false) :
    Added node byte child (node.add byte child) ∧ (node.add byte child).count = node.count + 1 ∧
      (node.add byte child).kind.capacity = node.kind.capacity := by
  obtain ⟨node', hsome, hadded, hcount, hcap⟩ := h.addChild hroom hfree hkid
  rw [InnerNode.add, hsome]
  exact ⟨hadded, hcount, hcap⟩

/-- **A new node over two children with different bytes.** -/
theorem fork {nodePrefix : Bytes} {old : ArtNode} (hne : b ≠ byte)
    (hold : old.isEmpty = false) (hkid : child.isEmpty = false) :
    (((new nodePrefix (.node4 keys)).add b old).add byte child).Proper ∧
      (((new nodePrefix (.node4 keys)).add b old).add byte child).nodePrefix = nodePrefix ∧
      ∀ b', (((new nodePrefix (.node4 keys)).add b old).add byte child).findChild b' =
        if b' = byte then child else if b' = b then old else .empty := by
  obtain ⟨hnew, hnone⟩ := proper_new nodePrefix (.node4 keys)
  obtain ⟨hfst, hcount, hcap⟩ := hnew.add (by decide : 0 < 4) (hnone b) hold
  have hroom : ((new nodePrefix (.node4 keys)).add b old).count <
      ((new nodePrefix (.node4 keys)).add b old).kind.capacity := by
    rw [hcount, hcap]
    exact (by decide : 0 + 1 < 4)
  have hfree : ((new nodePrefix (.node4 keys)).add b old).findChild byte = .empty := by
    rw [hfst.findChild, if_neg hne.symm, hnone]
  obtain ⟨hsecond, -⟩ := hfst.proper.add hroom hfree hkid
  refine ⟨hsecond.proper, hsecond.nodePrefix.trans hfst.nodePrefix, fun b' => ?_⟩
  rw [hsecond.findChild, hfst.findChild, hnone]

/-! ## All children -/

theorem entry_eq_some {e : Byte × ArtNode} : childrenIter.entry node byte i = some e ↔
    (node.children i).isEmpty = false ∧ e = (byte, node.children i) := by
  unfold childrenIter.entry
  cases hemp : (node.children i).isEmpty with
  | true => simp
  | false => simp [eq_comm]

theorem lists_filterMap {β : Type} {l : List β} {e : β → Option (Byte × ArtNode)}
    (hsound : ∀ x p, e x = some p → (node.findChild p.1).isEmpty = false ∧ p.2 = node.findChild p.1)
    (hall : ∀ b, (node.findChild b).isEmpty = false → ∃ x ∈ l, e x = some (b, node.findChild b))
    (hapart : l.Pairwise fun x y => ∀ p, e x = some p → ∀ q, e y = some q → p.1 ≠ q.1) :
    node.Lists id (l.filterMap e) := by
  refine ⟨by rwa [List.Nodup, pairwise_map, pairwise_filterMap], fun b c => ?_⟩
  rw [mem_filterMap]
  constructor
  · rintro ⟨x, -, hent⟩
    exact hsound x _ hent
  · rintro ⟨hfull, rfl⟩
    exact hall b hfull

theorem Arranged.lists_listed (h : node.Arranged)
    (hslot : ∀ b, node.kind.slot node.count b = (range node.count).find? fun i => keys i = b) :
    node.Lists id ((range node.count).filterMap fun i => childrenIter.entry node (keys i) i) := by
  have hkey : ∀ i, (node.children i).isEmpty = false → node.kind.slot node.count (keys i) = some i := by
    intro i hi
    obtain ⟨b, hb⟩ := h.reached i hi
    rw [← hb, (slot_listed ((hslot b).symm.trans hb)).2]
  refine lists_filterMap (fun i p hp => ?_) (fun b hfull => ?_)
    (nodup_range.imp fun hne p hp q hq heq => hne ?_)
  · obtain ⟨hfull, rfl⟩ := entry_eq_some.mp hp
    rw [findChild_of_slot (hkey i hfull)]
    exact ⟨hfull, rfl⟩
  · obtain ⟨i, hi⟩ := exists_slot hfull
    obtain ⟨hlt, hbyte⟩ := slot_listed ((hslot b).symm.trans hi)
    rw [findChild_of_slot hi] at hfull ⊢
    exact ⟨i, mem_range.mpr hlt, entry_eq_some.mpr ⟨hfull, by rw [hbyte]⟩⟩
  · obtain ⟨hfull, rfl⟩ := entry_eq_some.mp hp
    obtain ⟨hfull', rfl⟩ := entry_eq_some.mp hq
    have hslots := congrArg (node.kind.slot node.count) heq
    exact Option.some.inj ((hkey _ hfull).symm.trans (hslots.trans (hkey _ hfull')))

theorem lists_bytes (node : InnerNode) : node.Lists id ((finRange 256).filterMap fun byte =>
    (node.kind.slot node.count byte).bind (childrenIter.entry node byte)) := by
  have hent : ∀ byte e, (node.kind.slot node.count byte).bind (childrenIter.entry node byte) = some e ↔
      (node.findChild byte).isEmpty = false ∧ e = (byte, node.findChild byte) := by
    intro byte e
    cases hslot : node.kind.slot node.count byte with
    | none => simp [findChild_of_none hslot, ArtNode.isEmpty]
    | some i => rw [Option.bind_some, entry_eq_some, findChild_of_slot hslot]
  refine lists_filterMap (fun byte p hp => ?_) (fun b hfull => ⟨b, mem_finRange b, (hent b _).mpr ⟨hfull, rfl⟩⟩)
    ((nodup_finRange 256).imp fun hne p hp q hq heq => hne ?_)
  · obtain ⟨hfull, rfl⟩ := (hent byte p).mp hp
    exact ⟨hfull, rfl⟩
  · rwa [((hent _ p).mp hp).2, ((hent _ q).mp hq).2] at heq

/-- **`children_iter` lists the map.** -/
theorem Arranged.childrenIter (h : node.Arranged) : node.Lists id node.childrenIter := by
  have hbytes := lists_bytes node
  obtain ⟨nodePrefix, kind, count, children⟩ := node
  cases kind with
  | node4 keys | node16 keys => exact h.lists_listed fun b => rfl
  | node48 index | node256 => exact hbytes

theorem findChild_map (hf : f .empty = .empty) :
    { node with children := fun i => f (node.children i) }.findChild b = f (node.findChild b) := by
  unfold findChild
  cases node.kind.slot node.count b with
  | none => exact hf.symm
  | some i => rfl

/-- **A node copied child by child**, with each child replaced by its image. -/
theorem Proper.copy (h : node.Proper) (hf : ∀ c, (f c).isEmpty = c.isEmpty) :
    { (new node.nodePrefix node.kind).addAll
        { node with children := fun i => f (node.children i) }.childrenIter with
      count := node.count }.Proper ∧
    ((new node.nodePrefix node.kind).addAll
        { node with children := fun i => f (node.children i) }.childrenIter).nodePrefix =
      node.nodePrefix ∧
    ∀ b, { (new node.nodePrefix node.kind).addAll
        { node with children := fun i => f (node.children i) }.childrenIter with
      count := node.count }.findChild b = f (node.findChild b) := by
  have hemp : f .empty = .empty := ArtNode.isEmpty_iff.mp ((hf _).trans rfl)
  have himage : { node with children := fun i => f (node.children i) }.Proper :=
    h.of_isEmpty fun i => hf (node.children i)
  obtain ⟨hnd, hmem⟩ := himage.arranged.childrenIter
  obtain ⟨hproper, hpre, -, hfind⟩ := h.refill h.count_le hf ⟨hnd, fun b c => by
    rw [hmem, findChild_map hemp, hf, id]⟩
  exact ⟨hproper, hpre, hfind⟩

end InnerNode

end NanoStore.Table
