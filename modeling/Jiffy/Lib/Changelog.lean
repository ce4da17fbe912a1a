-- SUMMARY: A log of records that replace each other by key, and the table it rebuilds.
import Jiffy.Lib.OrderedMap

/-!
# Changelogs

A log of records, where a record replaces the earlier one of its key. A reader
who folds the log into a map by key holds, at any time, the table that the
writer appended to and replaced records in.
-/

namespace Changelog

variable {κ ν : Type} [DecidableEq κ] (key : ν → κ)

/-- `map.set(key(record), record)`. -/
def upsert (map : OrderedMap κ ν) (record : ν) : OrderedMap κ ν := map.set (key record) record

/-- The log, folded into a map. -/
def replay (log : List ν) : OrderedMap κ ν := log.foldl (upsert key) .empty

/-- The log rebuilds the rows, in their order. -/
def Rebuilds (log rows : List ν) : Prop := (replay key log).entries = rows.map fun r => (key r, r)

variable {key} {log rows : List ν} {record : ν}

theorem replay_snoc : replay key (log ++ [record]) = upsert key (replay key log) record := by
  unfold replay
  rw [List.foldl_append]
  rfl

theorem rebuilds_nil : Rebuilds key [] [] := rfl

namespace Rebuilds

theorem values (h : Rebuilds key log rows) : (replay key log).values = rows := by
  unfold OrderedMap.values
  rw [h, List.map_map]
  exact List.map_id' rows

theorem keys (h : Rebuilds key log rows) : (rows.map key).Nodup := by
  have hnodup := (replay key log).nodup
  rw [h, List.map_map] at hnodup
  exact hnodup

theorem get (h : Rebuilds key log rows) {r : ν} (hr : r ∈ rows) :
    (replay key log).get (key r) = some r := by
  apply OrderedMap.get_of_mem_entries
  rw [h]
  exact List.mem_map_of_mem hr

/-- A record with a new key is a new row. -/
theorem append (h : Rebuilds key log rows) (hnew : key record ∉ rows.map key) :
    Rebuilds key (log ++ [record]) (rows ++ [record]) := by
  have hnone : (replay key log).get (key record) = none := by
    rw [OrderedMap.get_eq_none_iff, h, List.map_map]
    exact hnew
  unfold Rebuilds
  rw [replay_snoc, upsert, OrderedMap.entries_set_of_none hnone, h, List.map_append]
  rfl

/-- A record with the key of a row takes its place. -/
theorem replace (h : Rebuilds key log rows) {r : ν} (hr : r ∈ rows) (hkey : key record = key r) :
    Rebuilds key (log ++ [record]) (rows.map fun r => if key r = key record then record else r) := by
  have hget := hkey ▸ h.get hr
  unfold Rebuilds
  rw [replay_snoc, upsert, OrderedMap.entries_set_of_some hget, h, List.map_map, List.map_map]
  apply List.map_congr_left
  intro s _
  simp only [Function.comp]
  split <;> rfl

end Rebuilds

end Changelog
