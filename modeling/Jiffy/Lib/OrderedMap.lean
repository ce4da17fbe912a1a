-- SUMMARY: Maps that remember insertion order, as the language's own `Map` does.
import Mathlib.Algebra.GroupWithZero.Nat
import Mathlib.Data.List.Induction
import Mathlib.Data.List.Nodup

/-!
# Insertion-ordered maps

A `Map` iterates its entries in the order their keys were first set; setting a
key again keeps its place. Every key occurs once, which the structure carries.
-/

/-- A map whose entries stand in the order their keys were first set. -/
structure OrderedMap (κ ν : Type) where
  entries : List (κ × ν)
  nodup : (entries.map Prod.fst).Nodup

namespace OrderedMap

variable {κ ν ν' : Type} [DecidableEq κ]

omit [DecidableEq κ] in
@[ext] theorem ext {m m' : OrderedMap κ ν} (h : m.entries = m'.entries) : m = m' := by
  cases m; cases m'; cases h; rfl

def empty : OrderedMap κ ν := ⟨[], List.nodup_nil⟩

/-- `map.get(k)`. -/
def get (m : OrderedMap κ ν) (k : κ) : Option ν :=
  (m.entries.find? fun e => e.1 = k).map Prod.snd

/-- `[...map.values()]`. -/
def values (m : OrderedMap κ ν) : List ν := m.entries.map Prod.snd

/-- Overwrite the value at `k` where the key already stands. -/
private def overwrite (k : κ) (v : ν) (es : List (κ × ν)) : List (κ × ν) :=
  es.map fun e => if e.1 = k then (k, v) else e

private theorem overwrite_keys (k : κ) (v : ν) (es : List (κ × ν)) :
    (overwrite k v es).map Prod.fst = es.map Prod.fst := by
  simp only [overwrite, List.map_map]
  apply List.map_congr_left
  intro e _
  by_cases h : e.1 = k <;> simp [h]

/-- `map.set(k, v)`. -/
def set (m : OrderedMap κ ν) (k : κ) (v : ν) : OrderedMap κ ν :=
  if h : k ∈ m.entries.map Prod.fst then
    ⟨overwrite k v m.entries, by rw [overwrite_keys]; exact m.nodup⟩
  else
    ⟨m.entries ++ [(k, v)], by
      rw [List.map_append]
      exact List.nodup_append.mpr ⟨m.nodup, List.nodup_singleton k, by
        intro a ha b hb hab
        simp only [List.map_cons, List.map_nil, List.mem_singleton] at hb
        exact h (hb ▸ hab ▸ ha)⟩⟩

/-- `map.delete(k)`. -/
def delete (m : OrderedMap κ ν) (k : κ) : OrderedMap κ ν :=
  ⟨m.entries.filter fun e => e.1 ≠ k, m.nodup.sublist (List.filter_sublist.map _)⟩

/-- Apply `f` to every value. -/
def mapValues (m : OrderedMap κ ν) (f : ν → ν') : OrderedMap κ ν' :=
  ⟨m.entries.map fun e => (e.1, f e.2), by simpa [List.map_map, Function.comp_def] using m.nodup⟩

-- ---------------------------------------------------------------------------
-- Lookup
-- ---------------------------------------------------------------------------

@[simp] theorem get_empty (k : κ) : (empty : OrderedMap κ ν).get k = none := rfl

theorem get_eq_none_iff {m : OrderedMap κ ν} {k : κ} :
    m.get k = none ↔ k ∉ m.entries.map Prod.fst := by
  simp [get]
  grind

theorem mem_entries_of_get {m : OrderedMap κ ν} {k : κ} {v : ν} (h : m.get k = some v) :
    (k, v) ∈ m.entries := by
  simp only [get, Option.map_eq_some_iff] at h
  obtain ⟨⟨k', v'⟩, hfind, rfl⟩ := h
  have hk : k' = k := by simpa using List.find?_some hfind
  exact hk ▸ List.mem_of_find?_eq_some hfind

theorem get_of_mem_entries {m : OrderedMap κ ν} {k : κ} {v : ν} (h : (k, v) ∈ m.entries) :
    m.get k = some v := by
  have hinj := List.inj_on_of_nodup_map m.nodup
  cases hget : m.get k with
  | none => exact absurd (List.mem_map_of_mem h) (get_eq_none_iff.mp hget)
  | some v' =>
    have := hinj (mem_entries_of_get hget) h rfl
    simp_all

theorem get_eq_some_iff {m : OrderedMap κ ν} {k : κ} {v : ν} :
    m.get k = some v ↔ (k, v) ∈ m.entries :=
  ⟨mem_entries_of_get, get_of_mem_entries⟩

theorem mem_values_iff {m : OrderedMap κ ν} {v : ν} : v ∈ m.values ↔ ∃ k, m.get k = some v := by
  simp [values, get_eq_some_iff]

/-- Lookup in the entries whose value satisfies `p`. -/
theorem get_of_entries_filter {m m' : OrderedMap κ ν} {p : ν → Bool}
    (h : m'.entries = m.entries.filter fun e => p e.2) (k : κ) : m'.get k = (m.get k).filter p := by
  apply Option.ext
  intro v
  rw [get_eq_some_iff, h, List.mem_filter, Option.filter_eq_some_iff, get_eq_some_iff]

-- ---------------------------------------------------------------------------
-- Update
-- ---------------------------------------------------------------------------

theorem entries_set_of_some {m : OrderedMap κ ν} {k : κ} {v v' : ν} (h : m.get k = some v) :
    (m.set k v').entries = m.entries.map fun e => if e.1 = k then (k, v') else e := by
  have hmem : k ∈ m.entries.map Prod.fst := List.mem_map_of_mem (mem_entries_of_get h)
  rw [set, dif_pos hmem]
  rfl

theorem entries_set_of_none {m : OrderedMap κ ν} {k : κ} {v : ν} (h : m.get k = none) :
    (m.set k v).entries = m.entries ++ [(k, v)] := by
  rw [set, dif_neg (get_eq_none_iff.mp h)]

@[simp] theorem get_set (m : OrderedMap κ ν) (k k' : κ) (v : ν) :
    (m.set k v).get k' = if k' = k then some v else m.get k' := by
  by_cases hk : k' = k
  · subst hk
    rw [if_pos rfl, get_eq_some_iff]
    cases hget : m.get k' with
    | none => simp [entries_set_of_none hget]
    | some w =>
      rw [entries_set_of_some hget, List.mem_map]
      exact ⟨(k', w), mem_entries_of_get hget, by simp⟩
  · rw [if_neg hk]
    apply Option.ext
    intro w
    rw [get_eq_some_iff, get_eq_some_iff]
    cases hget : m.get k with
    | none => simp [entries_set_of_none hget, hk]
    | some _ =>
      rw [entries_set_of_some hget, List.mem_map]
      constructor
      · rintro ⟨e, he, heq⟩
        by_cases hek : e.1 = k
        · simp [hek] at heq; exact absurd heq.1.symm hk
        · simp [hek] at heq; exact heq ▸ he
      · intro he
        exact ⟨(k', w), he, by simp [hk]⟩

@[simp] theorem get_delete (m : OrderedMap κ ν) (k k' : κ) :
    (m.delete k).get k' = if k' = k then none else m.get k' := by
  apply Option.ext
  intro v
  rw [get_eq_some_iff]
  simp only [delete, List.mem_filter, decide_eq_true_eq]
  split
  · next hk => simp [hk]
  · next hk => rw [get_eq_some_iff]; simp [hk]

/-- A key that was set before keeps its place. -/
theorem keys_set (m : OrderedMap κ ν) (k : κ) (v : ν) : (m.set k v).entries.map Prod.fst =
    if k ∈ m.entries.map Prod.fst then m.entries.map Prod.fst else m.entries.map Prod.fst ++ [k] := by
  unfold set
  split
  · exact overwrite_keys k v m.entries
  · exact List.map_append

/-- A loop of `set`s leaves the keys in the order they first came. -/
theorem keys_foldl_set {α : Type} (key : α → κ) (value : OrderedMap κ ν → α → ν) (xs : List α) :
    (xs.foldl (fun m x => m.set (key x) (value m x)) empty).entries.map Prod.fst =
      (xs.map key).eraseDups := by
  induction xs using List.reverseRecOn with
  | nil => rfl
  | append_singleton xs x ih =>
    rw [List.foldl_append, List.foldl_cons, List.foldl_nil, keys_set, ih, List.map_append,
      List.eraseDups_append, List.map_cons, List.map_nil]
    by_cases hseen : key x ∈ xs.map key
    · have hrest : [key x].removeAll (xs.map key) = [] := by simpa [List.removeAll] using hseen
      rw [if_pos (List.mem_eraseDups.mpr hseen), hrest, List.eraseDups_nil, List.append_nil]
    · have hrest : [key x].removeAll (xs.map key) = [key x] := by simpa [List.removeAll] using hseen
      rw [if_neg fun h => hseen (List.mem_eraseDups.mp h), hrest]
      rfl

/-- A loop over entries that deletes the keys whose value satisfies `p`. -/
theorem get_foldl_delete (p : ν → Bool) (es : List (κ × ν)) (m : OrderedMap κ ν) (k : κ) :
    (es.foldl (fun m e => if p e.2 then m.delete e.1 else m) m).get k =
      if es.any fun e => decide (k = e.1) && p e.2 then none else m.get k := by
  induction es generalizing m with
  | nil => rfl
  | cons e es ih =>
    rw [List.foldl_cons, ih, List.any_cons]
    cases hp : p e.2 with
    | false => simp only [Bool.false_eq_true, if_false, Bool.and_false, Bool.false_or]
    | true =>
      by_cases hk : k = e.1
      · simp [hk]
      · simp only [get_delete, hk, if_true, if_false, decide_false, Bool.false_and, Bool.false_or]

/-- The loop over the map's own entries. -/
theorem get_foldl_entries (p : ν → Bool) (m : OrderedMap κ ν) (k : κ) :
    (m.entries.foldl (fun m e => if p e.2 then m.delete e.1 else m) m).get k =
      (m.get k).filter fun v => !p v := by
  rw [get_foldl_delete]
  cases hget : m.get k with
  | none => exact ite_self none
  | some v =>
    have hdeleted : (m.entries.any fun e => decide (k = e.1) && p e.2) = p v := by
      rw [Bool.eq_iff_iff, List.any_eq_true]
      constructor
      · rintro ⟨e, he, hdel⟩
        obtain ⟨rfl, hp⟩ := by simpa using hdel
        rw [get_of_mem_entries he] at hget
        exact Option.some.inj hget ▸ hp
      · exact fun hp => ⟨(k, v), mem_entries_of_get hget, by simpa using hp⟩
    rw [hdeleted]
    cases hp : p v <;> simp [Option.filter, hp]

-- ---------------------------------------------------------------------------
-- Mapping the values
-- ---------------------------------------------------------------------------

section MapValues

variable (m : OrderedMap κ ν) (f : ν → ν')

theorem get_mapValues (k : κ) : (m.mapValues f).get k = (m.get k).map f := by
  simp only [get, mapValues, List.find?_map, Option.map_map]
  rfl

omit [DecidableEq κ] in
theorem values_mapValues : (m.mapValues f).values = m.values.map f := by
  simp only [values, mapValues, List.map_map]
  rfl

theorem mapValues_set (k : κ) (v : ν) :
    (m.set k v).mapValues f = (m.mapValues f).set k (f v) := by
  apply ext
  cases hget : m.get k with
  | none =>
    have hmap : (m.mapValues f).get k = none := by rw [get_mapValues, hget]; rfl
    rw [entries_set_of_none hmap]
    simp [mapValues, entries_set_of_none hget]
  | some v' =>
    have hmap : (m.mapValues f).get k = some (f v') := by rw [get_mapValues, hget]; rfl
    rw [entries_set_of_some hmap]
    simp only [mapValues, entries_set_of_some hget, List.map_map]
    apply List.map_congr_left
    intro e _
    simp only [Function.comp]
    split <;> rfl

end MapValues

-- ---------------------------------------------------------------------------
-- The values as a whole
-- ---------------------------------------------------------------------------

/-- The entry of a key, and the entries around it. -/
theorem entries_split {m : OrderedMap κ ν} {k : κ} {v : ν} (h : m.get k = some v) :
    ∃ before after, m.entries = before ++ (k, v) :: after ∧ (∀ e ∈ before, e.1 ≠ k) ∧
      ∀ e ∈ after, e.1 ≠ k := by
  obtain ⟨before, after, hsplit⟩ := List.append_of_mem (mem_entries_of_get h)
  have hnodup := m.nodup
  rw [hsplit, List.map_append, List.map_cons, List.nodup_middle, List.nodup_cons, List.mem_append] at hnodup
  refine ⟨before, after, hsplit, fun e he hk => ?_, fun e he hk => ?_⟩
  · exact hnodup.1 (.inl (List.mem_map.mpr ⟨e, he, hk⟩))
  · exact hnodup.1 (.inr (List.mem_map.mpr ⟨e, he, hk⟩))

theorem values_set_of_none {m : OrderedMap κ ν} {k : κ} {v : ν} (h : m.get k = none) :
    (m.set k v).values = m.values ++ [v] := by
  unfold values
  rw [entries_set_of_none h, List.map_append]
  rfl

theorem entries_delete_of_some {m : OrderedMap κ ν} {k : κ} {v : ν} (h : m.get k = some v) :
    ∃ before after, m.entries = before ++ (k, v) :: after ∧ (m.delete k).entries = before ++ after := by
  obtain ⟨before, after, hsplit, hbefore, hafter⟩ := entries_split h
  have hother : ∀ es : List (κ × ν), (∀ e ∈ es, e.1 ≠ k) → (es.filter fun e => e.1 ≠ k) = es :=
    fun es h => List.filter_eq_self.mpr fun e he => decide_eq_true (h e he)
  refine ⟨before, after, hsplit, ?_⟩
  show (m.entries.filter fun e => e.1 ≠ k) = before ++ after
  rw [hsplit, List.filter_append, List.filter_cons_of_neg (by simp), hother before hbefore,
    hother after hafter]

theorem delete_of_none {m : OrderedMap κ ν} {k : κ} (h : m.get k = none) : m.delete k = m := by
  apply ext
  apply List.filter_eq_self.mpr
  intro e he
  exact decide_eq_true fun hk => get_eq_none_iff.mp h (List.mem_map.mpr ⟨e, he, hk⟩)

/-- Deleting a key takes its value out. -/
theorem values_delete [DecidableEq ν] {m : OrderedMap κ ν} {k : κ} {v : ν} (h : m.get k = some v) :
    (m.delete k).values.Perm (m.values.erase v) := by
  obtain ⟨before, after, hsplit, hdelete⟩ := entries_delete_of_some h
  have hperm : m.values.Perm (v :: (m.delete k).values) := by
    unfold values
    rw [hsplit, hdelete, List.map_append, List.map_append, List.map_cons]
    exact List.perm_middle
  simpa using (hperm.erase v).symm

/-- Setting a key replaces its share of a total. -/
theorem sum_values_set (f : ν → Nat) (m : OrderedMap κ ν) (k : κ) (v : ν) :
    ((m.set k v).values.map f).sum + (m.get k).elim 0 f = (m.values.map f).sum + f v := by
  unfold values
  cases hget : m.get k with
  | none => simp [entries_set_of_none hget]
  | some w =>
    obtain ⟨before, after, hsplit, hbefore, hafter⟩ := entries_split hget
    have hother : ∀ es : List (κ × ν), (∀ e ∈ es, e.1 ≠ k) →
        es.map (fun e => if e.1 = k then (k, v) else e) = es := fun es h =>
      (List.map_congr_left fun e he => if_neg (h e he)).trans (List.map_id' es)
    rw [entries_set_of_some hget, hsplit, List.map_append, List.map_cons, hother before hbefore,
      hother after hafter]
    simp only [if_true, List.map_append, List.map_cons, List.sum_append, List.sum_cons, Option.elim_some]
    omega

/-- Deleting a key takes its share out of a total. -/
theorem sum_values_delete (f : ν → Nat) (m : OrderedMap κ ν) (k : κ) :
    ((m.delete k).values.map f).sum + (m.get k).elim 0 f = (m.values.map f).sum := by
  cases hget : m.get k with
  | none => rw [delete_of_none hget, Option.elim_none, Nat.add_zero]
  | some w =>
    obtain ⟨before, after, hsplit, hdelete⟩ := entries_delete_of_some hget
    unfold values
    rw [hsplit, hdelete]
    simp only [List.map_append, List.map_cons, List.sum_append, List.sum_cons, Option.elim_some]
    omega

end OrderedMap
