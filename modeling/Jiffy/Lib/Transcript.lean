-- SUMMARY: The requests of all calls of a run in one order, and logs in the state that grow by what each of them adds.
import Jiffy.Lib.Register

/-!
# Transcripts

A run performs the requests of its calls one after the other. Its transcript is
that order: it has the history of every call in it, and a log that grows request
by request is what the requests of the transcript have added to it.
-/

namespace Async

variable {P : Interface} {ε α β σ ι Op : Type}

theorem Config.history_of_call {c : Config P ε α σ Op} {id : Nat} {call : Call P ε α σ Op}
    (hcall : c.calls id = some call) : c.history id = call.history := by
  rw [history, hcall]
  rfl

theorem Config.mem_history {c : Config P ε α σ Op} {id : Nat} {e : P.Event ε} (he : e ∈ c.history id) :
    ∃ call, c.calls id = some call ∧ e ∈ call.history := by
  unfold Config.history at he
  cases hcall : c.calls id with
  | none =>
    rw [hcall] at he
    cases he
  | some call =>
    rw [hcall] at he
    exact ⟨call, rfl, he⟩

namespace System

variable (S : System P ε α σ ι Op)

/-- The requests that a run performs, each with the number of its call. -/
def transcript : Config P ε α σ Op → List (Label ι Op) → List (Nat × P.Event ε)
  | _, [] => []
  | c, l :: ls =>
    match S.step c l with
    | none => []
    | some c' =>
      ((c'.history l.id).drop (c.history l.id).length).map (fun e => (l.id, e)) ++ transcript c' ls

/-- What a transcript tells of one call. -/
def ofCall (id : Nat) (es : List (Nat × P.Event ε)) : List (P.Event ε) :=
  (es.filter fun e => e.1 = id).map Prod.snd

variable {S} {c c' : Config P ε α σ Op} {l : Label ι Op} {ls : List (Label ι Op)}

@[simp] theorem ofCall_append (id : Nat) (es es' : List (Nat × P.Event ε)) :
    ofCall id (es ++ es') = ofCall id es ++ ofCall id es' := by
  simp [ofCall]

theorem ofCall_tagged (id id' : Nat) (es : List (P.Event ε)) :
    ofCall id (es.map fun e => (id', e)) = if id' = id then es else [] := by
  unfold ofCall
  rw [List.filter_map, List.map_map]
  split
  · next hid => simp [hid, Function.comp_def]
  · next hid => simp [hid, Function.comp_def]

/-- What a turn adds to the history of its call, and by that to a log. -/
theorem step_log {L : σ → List β} {f : P.Event ε → List β} (htick : ∀ i s, L (S.tick i s) = L s)
    (harrive : ∀ {op s t}, S.arrive op s = some t → L t = L s)
    (hlog : ∀ i r s, L (S.perform i r s).2 = L s ++ f ⟨r, (S.perform i r s).1⟩) (h : S.step c l = some c') :
    ∃ es, c'.history l.id = c.history l.id ++ es ∧ (∀ id, id ≠ l.id → c'.history id = c.history id) ∧
      L c'.world = L c.world ++ es.flatMap f := by
  obtain ⟨τ⟩ := S.step_turn h
  obtain ⟨es, hhistory, hstate⟩ := advance_log hlog τ.program τ.input τ.history τ.state
  have hbefore : L τ.state = L c.world := by
    rcases τ.origin with ⟨-, -, -, -, harr⟩ | ⟨-, hs, -⟩
    · exact (harrive harr).trans (htick _ _)
    · rw [hs, htick]
  refine ⟨es, ?_, fun id hid => ?_, ?_⟩
  · rw [Config.history_of_call τ.own, hhistory, ← τ.history_eq]
  · rw [Config.history, τ.other hid]
    rfl
  · rw [τ.world, hstate, hbefore]

/-- The transcript of one step more. -/
theorem transcript_cons {es : List (P.Event ε)} (h : S.step c l = some c')
    (hes : c'.history l.id = c.history l.id ++ es) (ls : List (Label ι Op)) :
    S.transcript c (l :: ls) = es.map (fun e => (l.id, e)) ++ S.transcript c' ls := by
  rw [transcript]
  simp only [h, hes, List.drop_left]

/-- The history of each call goes on by its part of the transcript. -/
theorem runs_history (h : S.runs c ls = some c') (id : Nat) :
    c'.history id = c.history id ++ ofCall id (S.transcript c ls) := by
  induction ls generalizing c with
  | nil =>
    cases h
    exact (List.append_nil _).symm
  | cons l ls ih =>
    rw [S.runs_cons, Option.bind_eq_some_iff] at h
    obtain ⟨c₁, hstep, hruns⟩ := h
    -- The log does not matter here.
    obtain ⟨es, hown, hother, -⟩ := step_log (L := fun _ => ([] : List Unit)) (f := fun _ => [])
      (fun _ _ => rfl) (fun _ => rfl) (fun _ _ _ => rfl) hstep
    rw [ih hruns, transcript_cons hstep hown, ofCall_append, ofCall_tagged, ← List.append_assoc]
    congr 1
    split
    · next hid =>
      subst hid
      exact hown
    · next hid => rw [List.append_nil, hother id (Ne.symm hid)]

section Logs

variable {L : σ → List β} {f : P.Event ε → List β}

/-- A log goes on by what the requests of the transcript add to it. -/
theorem runs_log (htick : ∀ i s, L (S.tick i s) = L s) (harrive : ∀ {op s t}, S.arrive op s = some t → L t = L s)
    (hlog : ∀ i r s, L (S.perform i r s).2 = L s ++ f ⟨r, (S.perform i r s).1⟩) (h : S.runs c ls = some c') :
    L c'.world = L c.world ++ (S.transcript c ls).flatMap fun e => f e.2 := by
  induction ls generalizing c with
  | nil =>
    cases h
    exact (List.append_nil _).symm
  | cons l ls ih =>
    rw [S.runs_cons, Option.bind_eq_some_iff] at h
    obtain ⟨c₁, hstep, hruns⟩ := h
    obtain ⟨es, hown, -, hadds⟩ := step_log htick harrive hlog hstep
    rw [ih hruns, hadds, transcript_cons hstep hown, List.flatMap_append, List.flatMap_map, List.append_assoc]

/-- Every request of a transcript is in the history of its call. -/
theorem mem_history_of_transcript (h : S.runs c ls = some c') {id : Nat} {e : P.Event ε}
    (he : (id, e) ∈ S.transcript c ls) : e ∈ c'.history id := by
  rw [runs_history h id]
  refine List.mem_append_right _ (List.mem_map.mpr ⟨(id, e), List.mem_filter.mpr ⟨he, ?_⟩, rfl⟩)
  exact decide_eq_true rfl

/-- Every entry of a log that was empty was made by some request of some call. -/
theorem runs_accounted {s : σ} (htick : ∀ i s, L (S.tick i s) = L s)
    (harrive : ∀ {op s t}, S.arrive op s = some t → L t = L s)
    (hlog : ∀ i r s, L (S.perform i r s).2 = L s ++ f ⟨r, (S.perform i r s).1⟩) (hnil : L s = [])
    (h : S.runs (.idle s) ls = some c) {b : β} (hb : b ∈ L c.world) :
    ∃ id call, c.calls id = some call ∧ ∃ e ∈ call.history, b ∈ f e := by
  rw [runs_log htick harrive hlog h, show L (Config.idle s : Config P ε α σ Op).world = [] from hnil,
    List.nil_append] at hb
  obtain ⟨⟨id, e⟩, he, hbe⟩ := List.mem_flatMap.mp hb
  obtain ⟨call, hcall, hmem⟩ := Config.mem_history (mem_history_of_transcript h he)
  exact ⟨id, call, hcall, e, hmem, hbe⟩

end Logs

end System

end Async
