import Twig.System.BlockInfo
import Twig.Lib.Exact

/-!
# The rolling window of recorded blocks

The runs of `add_to_blockinfo_table` from an empty table, over blocks whose heights grow, with
gaps of any size. A call adds one row and takes away two at most, so after a gap the table still
holds rows from before it. It never holds more than the window has places, though: a table that
is full has, besides the new row, one at least that has left the window
(`addToBlockinfoTable_spec`).

* `Window` — what holds of the table after every call;
* `rolling_window` — no call aborts, and what each of them does.
-/

namespace Twig.System

open Std Fallible

/-! ### Heights -/

/-- The height of the block after the one with this id: the first four bytes of the id, in big
endian order, and one. -/
def heightAfter (id : Checksum256) : ℕ :=
  (id.get 0).toNat * 2 ^ 24 + (id.get 1).toNat * 2 ^ 16 + (id.get 2).toNat * 2 ^ 8 +
    (id.get 3).toNat + 1

theorem toNat_blockHeightFromId (id : Checksum256) : (blockHeightFromId id).toNat =
    (id.get 0).toNat * 2 ^ 24 + (id.get 1).toNat * 2 ^ 16 + (id.get 2).toNat * 2 ^ 8 +
      (id.get 3).toNat := by
  show (blockHeightFromId id).toNat =
    id[0].toNat * 2 ^ 24 + id[1].toNat * 2 ^ 16 + id[2].toNat * 2 ^ 8 + id[3].toNat
  have h0 : id[0].toNat < 2 ^ 8 := id[0].toNat_lt
  have h1 : id[1].toNat < 2 ^ 8 := id[1].toNat_lt
  have h2 : id[2].toNat < 2 ^ 8 := id[2].toNat_lt
  have h3 : id[3].toNat < 2 ^ 8 := id[3].toNat_lt
  have hfirst : (id[0].toUInt32 <<< 0x18).toNat = id[0].toNat * 2 ^ 24 :=
    UInt32.toNat_shiftLeft_of_lt (by decide) (by show id[0].toNat * 2 ^ 24 < 2 ^ 32; omega)
  have hsecond : (id[1].toUInt32 <<< 0x10).toNat = id[1].toNat * 2 ^ 16 :=
    UInt32.toNat_shiftLeft_of_lt (by decide) (by show id[1].toNat * 2 ^ 16 < 2 ^ 32; omega)
  have hthird : (id[2].toUInt32 <<< 0x08).toNat = id[2].toNat * 2 ^ 8 :=
    UInt32.toNat_shiftLeft_of_lt (by decide) (by show id[2].toNat * 2 ^ 8 < 2 ^ 32; omega)
  have htwo : id[0].toNat * 2 ^ 24 + id[1].toNat * 2 ^ 16 =
      (id[0].toNat * 2 ^ 8 + id[1].toNat) * 2 ^ 16 := by ring
  have hthree : (id[0].toNat * 2 ^ 8 + id[1].toNat) * 2 ^ 16 + id[2].toNat * 2 ^ 8 =
      ((id[0].toNat * 2 ^ 8 + id[1].toNat) * 2 ^ 8 + id[2].toNat) * 2 ^ 8 := by ring
  -- each byte fills the bits that the shift of the bytes before it has left free
  rw [blockHeightFromId, UInt32.toNat_or, UInt32.toNat_or, UInt32.toNat_or, hfirst, hsecond, hthird,
    UInt8.toNat_toUInt32, Nat.mul_two_pow_or_of_lt (by omega), htwo,
    Nat.mul_two_pow_or_of_lt (by omega), hthree, Nat.mul_two_pow_or_of_lt h3]

theorem toNat_newBlockHeight {id : Checksum256} (h : heightAfter id < 2 ^ 32) :
    (blockHeightFromId id + 1).toNat = heightAfter id := by
  have hid := toNat_blockHeightFromId id
  rw [heightAfter, ← hid] at h
  rw [UInt32.toNat_add_one h, hid, heightAfter]

/-! ### One call -/

section Call

variable {t stored : Table UInt32 BlockInfo} {id : Checksum256} {timestamp height : UInt32}

/-- The rows that a call takes away again from the table in which it has stored its own. -/
def prunable (stored : Table UInt32 BlockInfo) (height : UInt32) : List (UInt32 × BlockInfo) :=
  (stored.toList.takeWhile fun e =>
    e.1 ≤ max height rollingWindowSize - rollingWindowSize).take 2

/-- The table without these rows. -/
def pruned (stored : Table UInt32 BlockInfo) (height : UInt32) : Table UInt32 BlockInfo :=
  (prunable stored height).foldl (fun t e => t.erase e.1) stored

/-- A height that is not in the table is recorded. -/
theorem addToBlockinfoTable_eq (hheight : blockHeightFromId id + 1 = height) (hfresh : height ∉ t) :
    addToBlockinfoTable t id timestamp =
      .ok (pruned (t.insert height { blockTimestamp := timeOfSlot timestamp }) height) := by
  rw [addToBlockinfoTable, hheight, Table.emplace_eq_ok_iff.mpr ⟨hfresh, rfl⟩]
  rfl

/-- What is taken away has left the window. -/
theorem of_mem_prunable {e : UInt32 × BlockInfo} (he : e ∈ prunable stored height) :
    e.1.toNat ≤ height.toNat - 10 ∧ stored[e.1]? = some e.2 := by
  have hfront := List.mem_of_mem_take he
  have hle : e.1 ≤ max height rollingWindowSize - rollingWindowSize := by
    simpa using List.mem_takeWhile_imp hfront
  rw [UInt32.le_iff_toNat_le, toNat_lastPrunable] at hle
  exact ⟨hle, OrdMap.mem_toList.mp ((List.takeWhile_prefix _).subset hfront)⟩

/-- **The window has ten places.** A table of eleven rows is left with ten: either a row is taken
away, or all heights are in the window, and then there are no more than ten of them. -/
theorem size_pruned_le (hsize : stored.size ≤ 11) (hle : ∀ k ∈ stored, k.toNat ≤ height.toNat) :
    (pruned stored height).size ≤ 10 := by
  rw [pruned]
  cases hrows : prunable stored height with
  | nil =>
    rw [prunable, List.take_eq_nil_iff, or_iff_right (by decide)] at hrows
    refine OrdMap.size_le_of_mem_Ioc (f := UInt32.toNat) (a := height.toNat - 10)
      (fun _ _ => UInt32.toNat_inj.mp) fun k hk => ?_
    have hlt := OrdMap.lt_of_takeWhile_eq_nil hrows hk
    rw [UInt32.lt_iff_toNat_lt, toNat_lastPrunable] at hlt
    have hk' := hle k hk
    omega
  | cons e l =>
    have he : e ∈ prunable stored height := hrows ▸ List.mem_cons_self
    have hmem : e.1 ∈ stored := OrdMap.mem_iff_exists.mpr ⟨e.2, (of_mem_prunable he).2⟩
    exact Nat.le_of_lt_succ ((OrdMap.size_foldl_erase_lt hmem).trans_le hsize)

/-- **What one call does**, for a height above all recorded ones: it records its block and erases
two rows at most, all of which have left the window; and a table within the window's size stays
within it. -/
theorem addToBlockinfoTable_spec (hbound : heightAfter id < 2 ^ 32)
    (hnew : ∀ k ∈ t, 0 < k.toNat ∧ k.toNat < heightAfter id) (timestamp : UInt32) :
    ∃ (t' : Table UInt32 BlockInfo) (old : List UInt32),
      addToBlockinfoTable t id timestamp = .ok t' ∧ old.length ≤ 2 ∧
      (∀ k ∈ old, k ∈ t ∧ k.toNat + 10 ≤ heightAfter id) ∧
      (∀ k : UInt32, t'[k]? = if k ∈ old then none
        else if k.toNat = heightAfter id then some { blockTimestamp := timeOfSlot timestamp }
        else t[k]?) ∧
      (t.size ≤ 10 → t'.size ≤ 10) := by
  obtain ⟨height, hdef⟩ : ∃ height, blockHeightFromId id + 1 = height := ⟨_, rfl⟩
  have hheight : height.toNat = heightAfter id := hdef ▸ toNat_newBlockHeight hbound
  have hkey (k : UInt32) : k = height ↔ k.toNat = heightAfter id := by
    rw [← hheight, UInt32.toNat_inj]
  have hpos : 0 < heightAfter id := Nat.succ_pos _
  have hfresh : height ∉ t := fun hmem => (hnew height hmem).2.ne hheight
  obtain ⟨stored, hstored⟩ :
    ∃ stored, t.insert height { blockTimestamp := timeOfSlot timestamp } = stored := ⟨_, rfl⟩
  refine ⟨pruned stored height, (prunable stored height).map Prod.fst,
    hstored ▸ addToBlockinfoTable_eq hdef hfresh, ?_, ?_, fun k => ?_, fun hsize => ?_⟩
  · rw [List.length_map]
    exact List.length_take_le _ _
  · intro k hk
    obtain ⟨e, he, rfl⟩ := List.mem_map.mp hk
    obtain ⟨hle, hget⟩ := of_mem_prunable he
    rw [hheight] at hle
    have hne : e.1 ≠ height := fun heq => by
      rw [heq, hheight] at hle
      omega
    rw [← hstored, OrdMap.getElem?_insert, if_neg hne] at hget
    have hold : e.1 ∈ t := OrdMap.mem_iff_exists.mpr ⟨e.2, hget⟩
    have hpos' := (hnew e.1 hold).1
    exact ⟨hold, by omega⟩
  · simp only [pruned, OrdMap.getElem?_foldl_erase, ← hstored, OrdMap.getElem?_insert, hkey]
  · rw [← hstored]
    refine size_pruned_le (ExtTreeMap.size_insert_le.trans (Nat.succ_le_succ hsize)) fun k hk => ?_
    rw [ExtTreeMap.mem_insert, Std.compare_eq_iff_eq] at hk
    rcases hk with rfl | hk
    · exact Nat.le_refl _
    · exact hheight ▸ (hnew k hk).2.le

end Call

/-! ### Runs -/

/-- A call of `add_to_blockinfo_table`: the id of the previous block, and the slot of the block. -/
abbrev BlockCall := Checksum256 × UInt32

/-- The table after one call. -/
def record (t : Table UInt32 BlockInfo) (c : BlockCall) : Outcome (Table UInt32 BlockInfo) :=
  addToBlockinfoTable t c.1 c.2

/-- The heights of the calls grow, and fit into 32 bits. -/
structure Growing (tr : List BlockCall) : Prop where
  increasing : tr.Pairwise fun c d => heightAfter c.1 < heightAfter d.1
  bounded : ∀ c ∈ tr, heightAfter c.1 < 2 ^ 32

/-- **The window after the calls `tr`**: ten rows at most, all of them recorded by a call, and
among them every height that is in the window of the calls so far. -/
structure Window (tr : List BlockCall) (t : Table UInt32 BlockInfo) : Prop where
  size : t.size ≤ 10
  recorded : ∀ k ∈ t, ∃ d ∈ tr, heightAfter d.1 = k.toNat
  kept : ∀ d ∈ tr, (∀ e ∈ tr, heightAfter e.1 < heightAfter d.1 + 10) →
    ∀ k : UInt32, k.toNat = heightAfter d.1 → t[k]? = some { blockTimestamp := timeOfSlot d.2 }

variable {tr : List BlockCall} {c : BlockCall} {t : Table UInt32 BlockInfo}

theorem Growing.of_append (h : Growing (tr ++ [c])) : Growing tr :=
  ⟨(List.pairwise_append.mp h.increasing).1,
    fun d hd => h.bounded d (List.mem_append_left _ hd)⟩

/-- The last height is above the others. -/
theorem Growing.lt_last (h : Growing (tr ++ [c])) {d : BlockCall} (hd : d ∈ tr) :
    heightAfter d.1 < heightAfter c.1 :=
  (List.pairwise_append.mp h.increasing).2.2 d hd c List.mem_cons_self

/-- **A call slides the window.** -/
theorem Window.step (h : Window tr t) (hgrow : Growing (tr ++ [c])) :
    ∃ (t' : Table UInt32 BlockInfo) (old : List UInt32), record t c = .ok t' ∧
      Window (tr ++ [c]) t' ∧ old.length ≤ 2 ∧
      (∀ k ∈ old, k ∈ t ∧ k.toNat + 10 ≤ heightAfter c.1) ∧
      ∀ k : UInt32, t'[k]? = if k ∈ old then none
        else if k.toNat = heightAfter c.1 then some { blockTimestamp := timeOfSlot c.2 }
        else t[k]? := by
  have hnew (k : UInt32) (hk : k ∈ t) : 0 < k.toNat ∧ k.toNat < heightAfter c.1 := by
    obtain ⟨d, hd, heq⟩ := h.recorded k hk
    rw [← heq]
    exact ⟨Nat.succ_pos _, hgrow.lt_last hd⟩
  obtain ⟨t', old, hok, hlen, hold, hget, hsize⟩ :=
    addToBlockinfoTable_spec (hgrow.bounded c (by simp)) hnew c.2
  refine ⟨t', old, hok, ⟨hsize h.size, ?_, ?_⟩, hlen, hold, hget⟩
  · intro k hk
    obtain ⟨row, hrow⟩ := OrdMap.mem_iff_exists.mp hk
    rw [hget] at hrow
    split_ifs at hrow with herased hlast
    · exact ⟨c, by simp, hlast.symm⟩
    · obtain ⟨d, hd, heq⟩ := h.recorded k (OrdMap.mem_iff_exists.mpr ⟨row, hrow⟩)
      exact ⟨d, List.mem_append_left _ hd, heq⟩
  · intro d hd hwindow k hk
    have hin := hwindow c (by simp)
    have hkept : k ∉ old := fun hmem => by
      have hgone := (hold k hmem).2
      omega
    rw [hget, if_neg hkept]
    rcases List.mem_append.mp hd with hd | hd
    · have hlt := hgrow.lt_last hd
      rw [if_neg (by omega)]
      exact h.kept d hd (fun e he => hwindow e (List.mem_append_left _ he)) k hk
    · obtain rfl := List.mem_singleton.mp hd
      rw [if_pos hk]

/-- No call of a growing run aborts, and the window holds after each of them. -/
theorem exists_window (hgrow : Growing tr) : ∃ t, tr.foldlM record ∅ = .ok t ∧ Window tr t := by
  induction tr using List.reverseRecOn with
  | nil => exact ⟨∅, rfl, ⟨Nat.zero_le _, by simp, by simp⟩⟩
  | append_singleton tr c ih =>
    obtain ⟨t, hrun, hwindow⟩ := ih hgrow.of_append
    obtain ⟨t', old, hok, hwindow', -⟩ := hwindow.step hgrow
    refine ⟨t', ?_, hwindow'⟩
    rw [List.foldlM_append, hrun, ok_bind, List.foldlM_cons, hok]
    rfl

/-- **Rolling window.** For every sequence of calls on an empty table whose heights grow, with
gaps of any size, and fit into 32 bits: no call aborts. After each of them, `c`, there are at most
as many rows as the window has places, the new height is the greatest, every height in the window
has the time it was recorded with, and the call has erased two rows at most, none of them in the
window, and changed no other. -/
theorem rolling_window (hgrow : Growing (tr ++ [c])) :
    ∃ (t t' : Table UInt32 BlockInfo) (old : List UInt32),
      tr.foldlM record ∅ = .ok t ∧ record t c = .ok t' ∧
      t'.size ≤ rollingWindowSize.toNat ∧
      ((∃ k ∈ t', k.toNat = heightAfter c.1) ∧ ∀ k ∈ t', k.toNat ≤ heightAfter c.1) ∧
      (∀ d ∈ tr ++ [c], heightAfter c.1 < heightAfter d.1 + rollingWindowSize.toNat →
        ∃ k : UInt32, k.toNat = heightAfter d.1 ∧
          t'[k]? = some { blockTimestamp := timeOfSlot d.2 }) ∧
      old.length ≤ 2 ∧
      (∀ k ∈ old, k ∈ t ∧ k.toNat + rollingWindowSize.toNat ≤ heightAfter c.1) ∧
      ∀ k : UInt32, t'[k]? = if k ∈ old then none
        else if k.toNat = heightAfter c.1 then some { blockTimestamp := timeOfSlot c.2 }
        else t[k]? := by
  obtain ⟨t, hrun, hwindow⟩ := exists_window hgrow.of_append
  obtain ⟨t', old, hok, hwindow', hlen, hold, hget⟩ := hwindow.step hgrow
  have hgreatest (d : BlockCall) (hd : d ∈ tr ++ [c]) : heightAfter d.1 ≤ heightAfter c.1 := by
    rcases List.mem_append.mp hd with hd | hd
    · exact (hgrow.lt_last hd).le
    · rw [List.mem_singleton.mp hd]
  have hkept (d : BlockCall) (hd : d ∈ tr ++ [c])
      (hin : heightAfter c.1 < heightAfter d.1 + 10) :
      ∃ k : UInt32, k.toNat = heightAfter d.1 ∧
        t'[k]? = some { blockTimestamp := timeOfSlot d.2 } := by
    have hkey := toNat_newBlockHeight (hgrow.bounded d hd)
    exact ⟨_, hkey, hwindow'.kept d hd (fun e he => (hgreatest e he).trans_lt hin) _ hkey⟩
  obtain ⟨k, hk, hrow⟩ := hkept c (by simp) (by omega)
  refine ⟨t, t', old, hrun, hok, hwindow'.size,
    ⟨⟨k, OrdMap.mem_iff_exists.mpr ⟨_, hrow⟩, hk⟩, ?_⟩, hkept, hlen, hold, hget⟩
  intro k hk
  obtain ⟨d, hd, heq⟩ := hwindow'.recorded k hk
  exact heq ▸ hgreatest d hd

/-- The calls for blocks at these heights, each in the slot of the same number. -/
def callsAt (heights : List UInt8) : List BlockCall :=
  heights.map fun h => ((headerAt 1 (h - 1)).previous, h.toUInt32)

/-- Eleven blocks in a row, and one after a gap, at height 100. -/
theorem rolling_window_gap :
    ∃ (t t' : Table UInt32 BlockInfo) (old : List UInt32),
      (callsAt [1, 2, 3, 4, 5, 6, 7, 8, 9, 10, 11]).foldlM record ∅ = .ok t ∧
      record t ((headerAt 1 99).previous, 100) = .ok t' ∧ t'.size ≤ 10 ∧
      (∃ k ∈ t', k.toNat = 100) ∧ old.length ≤ 2 ∧ ∀ k ∈ old, k ∈ t ∧ k.toNat + 10 ≤ 100 := by
  have hgrow : Growing (callsAt [1, 2, 3, 4, 5, 6, 7, 8, 9, 10, 11] ++
      [((headerAt 1 99).previous, 100)]) :=
    ⟨by decide +kernel, by decide +kernel⟩
  obtain ⟨t, t', old, hrun, hok, hsize, ⟨hnewest, -⟩, -, hlen, hold, -⟩ := rolling_window hgrow
  have hheight : heightAfter (headerAt 1 99).previous = 100 := by decide +kernel
  simp only [hheight] at hnewest hold
  exact ⟨t, t', old, hrun, hok, hsize, hnewest, hlen, hold⟩

end Twig.System
