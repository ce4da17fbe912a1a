-- SUMMARY: Rules for port calls on the Postgres stores under any interference.
import Jiffy.Lib.RelyGuarantee
import Jiffy.Postgres.Calls

/-!
# Port calls under interference

A statement runs some time after it was asked for, in a state that the other
calls have led to, and its rows come back in another one.
-/

namespace Jiffy

open Js Async MessagingService

namespace Postgres

variable {uuid : String → Option String} {i : Input} {w : World}
  {C : Conditions server Failure World} {h : List (server.Event Failure)} {β : Type}

theorem query_safe {s : Statement} {Q : Postcondition server Failure s.Rows World Input}
    (hpre : ∀ t, C.Pre h t (.query s))
    (hQ : ∀ {j t j' t'}, C.Inv t → C.Rely w t → C.Rely (perform uuid j (.query s) t).2 t' → C.Inv t' →
      admissible uuid j' t' = true →
        Q j' (perform uuid j (.query s) t).1 (h ++ [⟨.query s, (perform uuid j (.query s) t).1⟩]) t') :
    (query s).Safe (adapter uuid) C Q i h w := by
  intro t j hwt hI _
  refine ⟨hpre t, fun t' j' hR hI' ha => ?_⟩
  have hpost := @hQ j t j' t' hI hwt hR hI' ha
  rw [adapter_perform]
  revert hpost
  cases (perform uuid j (.query s) t).1 with
  | ok rows => exact id
  | error e => exact id

/-- A port call that is one statement. -/
theorem fetch_safe {call : PortCall} {s : Statement} {g : s.Rows → call.Resp}
    (himpl : implementation call = (query s).bind fun rows => .ret (g rows))
    {k : Except Failure call.Resp → Service β} {Q : Postcondition server Failure β World Input}
    (hpre : ∀ t, C.Pre h t (.query s))
    (hk : ∀ {j t j' t'}, C.Inv t → C.Rely w t → C.Rely (perform uuid j (.query s) t).2 t' → C.Inv t' →
      admissible uuid j' t' = true →
        ((k ((perform uuid j (.query s) t).1.map g)).implement implementation).Safe (adapter uuid) C Q j'
          (h ++ [⟨.query s, (perform uuid j (.query s) t).1⟩]) t') :
    ((Proc.await call k : Service β).implement implementation).Safe (adapter uuid) C Q i h w := by
  refine Proc.Safe.implement ?_
  rw [himpl]
  refine Proc.Safe.bind (query_safe hpre fun {j t j' t'} hI hwt hR hI' ha => ?_)
  have hsafe := @hk j t j' t' hI hwt hR hI' ha
  revert hsafe
  cases (perform uuid j (.query s) t).1 with
  | ok rows => exact id
  | error e => exact id

/-- The participant check, and then the rest on the conversation it read. -/
theorem check_safe {c u : String} {f : Conversation → Service β}
    {Q : Postcondition server Failure β World Input}
    (hpre : ∀ t, C.Pre h t (.query (.selectConversation c)))
    (hbad : ∀ {j t e} x, Q j (.error e) (h ++ [⟨.query (.selectConversation c), x⟩]) t)
    (hok : ∀ {j t rows conversation j' t'}, C.Inv t →
      execute uuid j t.clock t.database (.selectConversation c) = .ok (rows, t.database) →
      (rowsToConversations rows).head? = some conversation → isParticipant conversation u = true →
      C.Inv t' → admissible uuid j' t' = true → ((f conversation).implement implementation).Safe
        (adapter uuid) C Q j' (h ++ [⟨.query (.selectConversation c), .ok rows⟩]) t') :
    (((awaitParticipant c u).bind f).implement implementation).Safe (adapter uuid) C Q i h w := by
  simp only [awaitParticipant, requireParticipant, Proc.request, Proc.bind_eq_bind, Proc.await_bind]
  refine fetch_safe (s := .selectConversation c) (g := fun rows => (rowsToConversations rows).head?)
    rfl hpre fun {j t j' t'} hI _ _ _ _ => ?_
  rcases perform_query_cases uuid j t (.selectConversation c) with ⟨e, heq⟩ | ⟨rows, db, hexec, heq⟩
  · rw [heq]
    exact hbad _
  rw [heq]
  obtain ⟨rfl, -⟩ := execute_selectConversation hexec
  simp only [Except.map, Proc.ofExcept_ok, Proc.ret_bind]
  cases hhead : (rowsToConversations rows).head? with
  | none => exact hbad _
  | some conversation =>
    simp only
    split
    · next hu => exact fun t'' j'' _ hI'' ha'' => hok hI hexec hhead hu hI'' ha''
    · exact hbad _

/-- The gate's answer. -/
theorem gate_safe {u : String} {ids : List String} {k : Except Failure Bool → Service β}
    {Q : Postcondition server Failure β World Input} (hpre : C.Pre h w (.canCreateConversation u ids))
    (hk : ∀ {x j t}, C.Inv t → C.Rely (perform uuid i (.canCreateConversation u ids) w).2 t →
      admissible uuid j t = true → ((k x).implement implementation).Safe (adapter uuid) C Q j
        (h ++ [⟨.canCreateConversation u ids, x⟩]) t) :
    ((Proc.await (.canCreateConversation u ids) k : Service β).implement implementation).Safe
      (adapter uuid) C Q i h w := by
  refine Proc.Safe.implement ⟨hpre, fun t j hR hI ha => ?_⟩
  rw [adapter_perform]
  have hsafe := @hk (perform uuid i (.canCreateConversation u ids) w).1 j t hI hR ha
  revert hsafe
  cases (perform uuid i (.canCreateConversation u ids) w).1 with
  | ok allowed => exact id
  | error e => exact id

/-- What is handed to the bus is handed over in the same turn. -/
theorem publish_safe {m : Message} {k : Except Failure Unit → Service β}
    {Q : Postcondition server Failure β World Input} (ha : admissible uuid i w = true)
    (hpre : C.Pre h w (.publish m)) (hk : ((k (.ok ())).implement implementation).Safe (adapter uuid) C Q
      i (h ++ [⟨.publish m, .ok ()⟩]) (perform uuid i (.publish m) w).2) :
    ((Proc.sync (.publish m) k : Service β).implement implementation).Safe (adapter uuid) C Q i h w :=
  Proc.Safe.bind (Proc.Safe.settle ⟨hpre, ha, hk⟩)

theorem notify_safe {m : Message} {ids : List String} {k : Except Failure Unit → Service β}
    {Q : Postcondition server Failure β World Input} (ha : admissible uuid i w = true)
    (hpre : C.Pre h w (.notify m ids)) (hk : ((k (.ok ())).implement implementation).Safe (adapter uuid)
      C Q i (h ++ [⟨.notify m ids, .ok ()⟩]) (perform uuid i (.notify m ids) w).2) :
    ((Proc.sync (.notify m ids) k : Service β).implement implementation).Safe (adapter uuid) C Q i h w :=
  Proc.Safe.bind (Proc.Safe.settle ⟨hpre, ha, hk⟩)

-- ---------------------------------------------------------------------------
-- Whole programs
-- ---------------------------------------------------------------------------

/-- The requests that a call makes without awaiting them. -/
def Unawaited : ServerCall → Prop
  | .release _ | .newDate | .publish _ | .notify _ _ => True
  | _ => False

theorem implementation_onSpot (call : PortCall) : (implementation call).OnSpot Unawaited := by
  have hquery : ∀ s : Statement, (query s).OnSpot Unawaited := fun s =>
    Proc.OnSpot.request (P := server) (.query s)
  have hfirst : ∀ {α : Type} (rows : List α), (firstRow rows).OnSpot Unawaited := by
    intro α rows
    cases rows <;> trivial
  have hhistory : ∀ c options,
      (PostgresMessageStore.listByConversation c options).OnSpot Unawaited :=
    fun c options => Proc.OnSpot.bind (hquery _) fun _ => trivial
  cases call with
  | canCreateConversation => exact Proc.OnSpot.request (P := server) _
  | createConversation ids =>
    refine Proc.OnSpot.bind (Proc.OnSpot.request (P := server) .connect) fun client => ?_
    refine Proc.OnSpot.ensuring (Proc.OnSpot.catching ?_ fun e => ?_)
      (Proc.OnSpot.perform (P := server) trivial)
    · refine Proc.OnSpot.bind (hquery _) fun _ => Proc.OnSpot.bind (hquery _) fun inserted => ?_
      refine Proc.OnSpot.bind (hfirst inserted) fun row => Proc.OnSpot.bind ?_ fun _ => ?_
      · unfold PostgresConversationStore.insertParticipants
        split
        · exact hquery _
        · trivial
      · exact Proc.OnSpot.bind (hquery _) fun _ => trivial
    · exact Proc.OnSpot.bind (hquery _) fun _ => trivial
  | findConversation | findByParticipant | findMessage => exact Proc.OnSpot.bind (hquery _) fun _ => trivial
  | markRead | clear => exact hquery _
  | createMessage =>
    refine Proc.OnSpot.bind (hquery _) fun rows => ?_
    exact Proc.OnSpot.bind (hfirst rows) fun _ => trivial
  | listByConversation c options => exact hhistory c options
  | listPreviews queries =>
    change (listPreviews queries).OnSpot Unawaited
    induction queries with
    | nil => trivial
    | cons q queries ih =>
      refine Proc.OnSpot.bind (hhistory _ _) fun _ => ?_
      exact Proc.OnSpot.bind ih fun _ => trivial
  | softDelete =>
    refine Proc.OnSpot.bind (hquery _) fun updated => ?_
    split
    · trivial
    · refine Proc.OnSpot.bind (hquery _) fun existing => ?_
      exact Proc.OnSpot.bind (hfirst existing) fun _ => trivial
  | settled => trivial
  | newDate | publish | notify => exact Proc.OnSpot.perform (P := server) trivial

/-- What a call does without awaiting it leaves the turn's input admissible. -/
theorem perform_unawaited {r : ServerCall} (hr : Unawaited r) (ha : admissible uuid i w = true) :
    admissible uuid i (perform uuid i r w).2 = true := by
  cases r with
  | release | newDate | publish | notify => exact ha
  | _ => cases hr

/-- A program whose requests are allowed at any time is safe. -/
theorem program_safe (op : Op)
    (hpre : ∀ call s, op.Uses call → Sends call s → ∀ h t, C.Pre h t s)
    (ha : admissible uuid i w = true) :
    (op.program.implement implementation).Safe (adapter uuid) C (fun _ _ _ _ => True) i [] w :=
  Proc.Safe.of_only (fun h t ⟨call, huses, hsends⟩ => hpre call _ huses hsends h t) perform_unawaited
    (program_only op) (Proc.OnSpot.implement implementation_onSpot _) ha

theorem admissible_tick (ha : admissible uuid i w = true) :
    admissible uuid i ((adapter uuid).tick i w) = true := by
  change admissible uuid i { w with clock := i.now } = true
  simp only [admissible, Bool.and_eq_true, decide_eq_true_eq] at ha ⊢
  exact ⟨⟨⟨le_refl _, ha.1.1.2⟩, ha.1.2⟩, ha.2⟩

end Postgres

end Jiffy
