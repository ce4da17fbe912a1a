-- SUMMARY: How the connection registry reads back after a socket is added or removed.
import Jiffy.WebSocket.ConnectionRegistry

/-!
# Reading the registry back
-/

namespace Jiffy

namespace ConnectionRegistry

variable {registry : ConnectionRegistry} {u v : String} {s t : Nat}

@[simp] theorem get_empty (u : String) : empty.get u = [] := rfl

theorem get_add : (registry.add u s).get v =
    if v = u then (if s ∈ registry.get u then registry.get u else registry.get u ++ [s])
    else registry.get v := by
  unfold add get
  rw [OrderedMap.get_set]
  split <;> rfl

theorem get_remove : (registry.remove u s).get v =
    if v = u then (registry.get u).filter fun t => t ≠ s else registry.get v := by
  unfold remove
  cases hget : registry.connections.get u with
  | none =>
    simp only
    split
    · next hv =>
      subst hv
      simp [get, hget]
    · rfl
  | some sockets =>
    have hu : registry.get u = sockets := by simp [get, hget]
    simp only [hu]
    split
    · next hempty =>
      simp only [get, OrderedMap.get_delete]
      split
      · exact hempty.symm
      · rfl
    · simp only [get, OrderedMap.get_set]
      split <;> rfl

/-- No user keeps an empty entry. -/
def NoEmptyEntry (registry : ConnectionRegistry) : Prop :=
  ∀ u sockets, registry.connections.get u = some sockets → sockets ≠ []

theorem NoEmptyEntry.add (h : registry.NoEmptyEntry) : (registry.add u s).NoEmptyEntry := by
  intro v sockets hget
  unfold ConnectionRegistry.add at hget
  simp only [OrderedMap.get_set] at hget
  split at hget
  · cases hget
    split
    · next hs => exact List.ne_nil_of_mem hs
    · exact List.concat_ne_nil s _
  · exact h v sockets hget

theorem NoEmptyEntry.remove (h : registry.NoEmptyEntry) : (registry.remove u s).NoEmptyEntry := by
  intro v sockets hget
  unfold ConnectionRegistry.remove at hget
  split at hget
  · exact h v sockets hget
  · simp only at hget
    split at hget
    · simp only [OrderedMap.get_delete] at hget
      split at hget
      · cases hget
      · exact h v sockets hget
    · next hne =>
      simp only [OrderedMap.get_set] at hget
      split at hget
      · cases hget
        exact hne
      · exact h v sockets hget

/-- How many sockets are registered. -/
def size (registry : ConnectionRegistry) : Nat := (registry.connections.values.map List.length).sum

theorem length_get : (registry.get u).length = (registry.connections.get u).elim 0 List.length := by
  unfold get
  cases registry.connections.get u <;> rfl

theorem size_add (hs : s ∉ registry.get u) : (registry.add u s).size = registry.size + 1 := by
  have hset := OrderedMap.sum_values_set List.length registry.connections u (registry.get u ++ [s])
  rw [← length_get, List.length_append, List.length_singleton] at hset
  have hadd : registry.add u s = ⟨registry.connections.set u (registry.get u ++ [s])⟩ := by
    unfold add get at *
    simp only [if_neg hs]
  rw [hadd]
  simp only [size]
  omega

theorem size_remove (hs : s ∈ registry.get u) (hnodup : (registry.get u).Nodup) :
    (registry.remove u s).size + 1 = registry.size := by
  have hlength : ((registry.get u).filter fun t => t ≠ s).length + 1 = (registry.get u).length := by
    have hcount := List.length_eq_countP_add_countP (fun t => decide (t ≠ s)) (l := registry.get u)
    have hone : (registry.get u).countP (fun t => ¬ decide (t ≠ s)) = 1 := by
      refine Eq.trans ?_ (List.count_eq_one_of_mem hnodup hs)
      exact List.countP_congr fun t _ => by simp
    rw [hone, List.countP_eq_length_filter] at hcount
    exact hcount.symm
  have hshare := @length_get registry u
  unfold remove
  cases hget : registry.connections.get u with
  | none =>
    unfold get at hs
    rw [hget] at hs
    cases hs
  | some sockets =>
    have hu : registry.get u = sockets := by simp [get, hget]
    rw [hu] at hlength
    simp only
    split
    · next hempty =>
      have hdelete := OrderedMap.sum_values_delete List.length registry.connections u
      rw [hget, Option.elim_some] at hdelete
      rw [hempty, List.length_nil] at hlength
      simp only [size]
      omega
    · have hset := OrderedMap.sum_values_set List.length registry.connections u
        (sockets.filter fun t => t ≠ s)
      rw [hget, Option.elim_some] at hset
      simp only [size]
      omega

theorem mem_get_add : t ∈ (registry.add u s).get v ↔ t ∈ registry.get v ∨ v = u ∧ t = s := by
  rw [get_add]
  split
  · next hv =>
    subst hv
    split
    · next hs =>
      constructor
      · exact .inl
      · rintro (h | ⟨-, rfl⟩)
        · exact h
        · exact hs
    · simp
  · next hv => simp [hv]

theorem mem_get_remove :
    t ∈ (registry.remove u s).get v ↔ t ∈ registry.get v ∧ ¬ (v = u ∧ t = s) := by
  rw [get_remove]
  split
  · next hv =>
    subst hv
    simp
  · next hv => simp [hv]

theorem nodup_get_add (h : (registry.get v).Nodup) (hs : s ∉ registry.get u) :
    ((registry.add u s).get v).Nodup := by
  rw [get_add, if_neg hs]
  split
  · next hv =>
    subst hv
    refine List.nodup_append.mpr ⟨h, List.nodup_singleton s, ?_⟩
    rintro a ha b hb rfl
    exact hs (List.mem_singleton.mp hb ▸ ha)
  · exact h

theorem nodup_get_remove (h : (registry.get v).Nodup) : ((registry.remove u s).get v).Nodup := by
  rw [get_remove]
  split
  · next hv =>
    subst hv
    exact h.filter _
  · exact h

end ConnectionRegistry

end Jiffy
