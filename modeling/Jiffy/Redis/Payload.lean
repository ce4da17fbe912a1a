-- SUMMARY: What an instance revives from the payload of a message, and which payloads it revives at all.
import Jiffy.Adapters.Redis

/-!
# Payloads

A published message arrives as an object with its fields: `createdAt` is a date
again, `deletedAt` stays text. Of the other texts that may arrive, some are not
JSON, and some have something under `createdAt` that no date is made of.
-/

namespace Jiffy

open Js

namespace RedisMessageBus

variable {engine : Engine} {m : Message}

/-- The fields of a message as `JSON.parse` leaves them. -/
def parsedFields (m : Message) : List (String × Json) := [
  ("id", .string m.id),
  ("conversationId", .string m.conversationId),
  ("senderId", .string m.senderId),
  ("body", .string m.body),
  ("createdAt", .string (toISOString m.createdAt)),
  ("deletedAt", m.deletedAt.elim .null fun t => .string (toISOString t))]

/-- What a subscriber is handed for a message. -/
def revivedMessage (m : Message) : Value := .object [
  ("id", .string m.id),
  ("conversationId", .string m.conversationId),
  ("senderId", .string m.senderId),
  ("body", .string m.body),
  ("createdAt", .date (Date.of m.createdAt)),
  ("deletedAt", m.deletedAt.elim .null fun t => .string (toISOString t))]

theorem parse_payloadOf (engine : Engine) (m : Message) :
    Json.parse engine.number (payloadOf engine m) = some (.object (parsedFields m)) := by
  refine parse_stringify_flat ?_ (by simp [parsedFields]) (by simp [parsedFields, arrayIndex])
  unfold parsedFields
  refine .cons ⟨rfl, rfl⟩ (.cons ⟨rfl, rfl⟩ (.cons ⟨rfl, rfl⟩ (.cons ⟨rfl, rfl⟩ (.cons ⟨rfl, rfl⟩
    (.cons ⟨rfl, ?_⟩ .nil)))))
  cases m.deletedAt <;> rfl

theorem parseMessage_payloadOf (hengine : engine.ReadsISO) (hm : IsTime m.createdAt) :
    parseMessage engine (payloadOf engine m) = .ok (revivedMessage m) := by
  have hdate := hengine m.createdAt hm
  unfold parseMessage
  rw [parse_payloadOf]
  cases hdeleted : m.deletedAt with
  | none =>
    simp [parsedFields, revivedMessage, hdeleted, Json.revive, reviveFields, reviver, newDate,
      stringOf, Except.map, hdate]
    rfl
  | some t =>
    simp [parsedFields, revivedMessage, hdeleted, Json.revive, reviveFields, reviver, newDate,
      stringOf, Except.map, hdate]
    rfl

/-- A subscriber is handed the message that was published exactly when it is not
a tombstone: of the two dates only `createdAt` is revived. -/
theorem received_iff_live (hengine : engine.ReadsISO) (hm : IsTime m.createdAt) :
    listener engine channel (payloadOf engine m) = .ok (some (messageValue m)) ↔ m.deletedAt = none := by
  have hreceived : listener engine channel (payloadOf engine m) = .ok (some (revivedMessage m)) := by
    unfold listener
    rw [if_neg (not_not.mpr rfl), parseMessage_payloadOf hengine hm]
    rfl
  rw [hreceived]
  unfold revivedMessage messageValue
  cases m.deletedAt with
  | none => simp
  | some t => simp

/-- A reader of ISO dates, for messages of a conversation. -/
def dateEngine : Engine :=
  ⟨TextReader.iso fun _ => .nan, fun _ => "NaN", fun d => d.time.elim "Invalid Date" toISOString⟩

theorem received_iff_live_sent : listener dateEngine channel
    (payloadOf dateEngine ⟨"m", "c", "ann", "hi", 1500, none⟩) =
      .ok (some (messageValue ⟨"m", "c", "ann", "hi", 1500, none⟩)) ↔ (none : Option Int) = none :=
  received_iff_live (TextReader.iso_readsISO _) (by decide)

/-- A tombstone arrives with the text of its deletion in place of the date. -/
theorem tombstone_altered : ∃ engine : Engine, engine.ReadsISO ∧
    listener engine channel (payloadOf engine ⟨"m", "c", "ann", "", 1500, some 2500⟩) = .ok (some (.object [
      ("id", .string "m"), ("conversationId", .string "c"), ("senderId", .string "ann"),
      ("body", .string ""), ("createdAt", .date (Date.of 1500)),
      ("deletedAt", .string "1970-01-01T00:00:02.500Z")])) ∧
    listener engine channel (payloadOf engine ⟨"m", "c", "ann", "", 1500, some 2500⟩) ≠
      .ok (some (messageValue ⟨"m", "c", "ann", "", 1500, some 2500⟩)) := by
  have hreads : dateEngine.ReadsISO := TextReader.iso_readsISO _
  have hreceived : listener dateEngine channel
      (payloadOf dateEngine ⟨"m", "c", "ann", "", 1500, some 2500⟩) =
      .ok (some (revivedMessage ⟨"m", "c", "ann", "", 1500, some 2500⟩)) := by
    unfold listener
    rw [if_neg (not_not.mpr rfl), parseMessage_payloadOf hreads (by decide)]
    rfl
  have htext : toISOString 2500 = "1970-01-01T00:00:02.500Z" := by decide
  refine ⟨dateEngine, hreads, ?_, ?_⟩
  · rw [hreceived]
    unfold revivedMessage
    rw [Option.elim_some, htext]
  · rw [hreceived]
    unfold revivedMessage messageValue
    simp

theorem conversationIdOf_revivedMessage (m : Message) :
    conversationIdOf (revivedMessage m) = .ok (some (.string m.conversationId)) := rfl

/-- The text of what is revived is the payload. -/
theorem stringify_revivedMessage (engine : Engine) (m : Message) :
    (revivedMessage m).stringify engine.numberText = payloadOf engine m := by
  unfold payloadOf messageValue revivedMessage
  cases m.deletedAt <;> rfl

-- ---------------------------------------------------------------------------
-- Payloads that can be read
-- ---------------------------------------------------------------------------

mutual

/-- Whether `String(value)` is text: not for an object with a field `toString`,
nor for an array with such an object in it. -/
def HasText : Json → Prop
  | .array elements => ElementsHaveText elements
  | .object fields => ∀ field ∈ fields, field.1 ≠ "toString"
  | .null | .bool _ | .number _ | .string _ => True

def ElementsHaveText : List Json → Prop
  | [] => True
  | v :: vs => HasText v ∧ ElementsHaveText vs

end

mutual

/-- Whatever is called `createdAt`, at any depth, has text. -/
def Datable : Json → Prop
  | .array elements => ElementsDatable elements
  | .object fields => FieldsDatable fields
  | .null | .bool _ | .number _ | .string _ => True

def ElementsDatable : List Json → Prop
  | [] => True
  | v :: vs => Datable v ∧ ElementsDatable vs

def FieldsDatable : List (String × Json) → Prop
  | [] => True
  | (name, v) :: fields => (Datable v ∧ (name = "createdAt" → HasText v)) ∧ FieldsDatable fields

end

/-- The payload is JSON, but not `null`, and every `createdAt` in it has text. -/
def Legible (engine : Engine) (payload : String) : Prop :=
  ∃ v, Json.parse engine.number payload = some v ∧ v ≠ .null ∧ Datable v

section Legible

variable {ε α β γ : Type}

theorem map_ok_iff {x : Except ε α} {f : α → β} : (∃ b, x.map f = .ok b) ↔ ∃ a, x = .ok a := by
  cases x with
  | error e => exact iff_of_false (fun ⟨_, h⟩ => by cases h) fun ⟨_, h⟩ => by cases h
  | ok a => exact iff_of_true ⟨_, rfl⟩ ⟨_, rfl⟩

/-- One result of two computations. -/
theorem both_eq_ok {x : Except ε α} {y : Except ε β} {f : α → β → γ} {c : γ} :
    (x.bind fun a => y.bind fun b => .ok (f a b)) = .ok c ↔ ∃ a b, x = .ok a ∧ y = .ok b ∧ f a b = c := by
  cases x with
  | error e => exact iff_of_false (fun h => by cases h) fun ⟨_, _, h, _⟩ => by cases h
  | ok a =>
    cases y with
    | error e => exact iff_of_false (fun h => by cases h) fun ⟨_, _, _, h, _⟩ => by cases h
    | ok b =>
      constructor
      · exact fun h => ⟨a, b, rfl, rfl, Except.ok.inj h⟩
      · rintro ⟨_, _, ha, hb, rfl⟩
        cases ha
        cases hb
        rfl

theorem both_ok_iff {x : Except ε α} {y : Except ε β} {f : α → β → γ} :
    (∃ c, (x.bind fun a => y.bind fun b => .ok (f a b)) = .ok c) ↔ (∃ a, x = .ok a) ∧ ∃ b, y = .ok b := by
  simp only [both_eq_ok]
  constructor
  · rintro ⟨_, a, b, ha, hb, -⟩
    exact ⟨⟨a, ha⟩, b, hb⟩
  · rintro ⟨⟨a, ha⟩, b, hb⟩
    exact ⟨_, a, b, ha, hb, rfl⟩

/-- A date is made of what has text. -/
theorem newDate_ok_iff {value : Value} :
    (∃ d, newDate engine value = .ok d) ↔ ∃ text, stringOf engine value = .ok text := by
  cases value with
  | array elements | object fields => exact map_ok_iff
  | _ => exact iff_of_true ⟨_, rfl⟩ ⟨_, by rw [stringOf]⟩

/-- What the reviver makes of a value that has text exactly if `v` has. -/
theorem reviver_ok_iff (name : String) {v : Json} {value : Value}
    (hvalue : (∃ text, stringOf engine value = .ok text) ↔ HasText v) :
    ((∃ w, reviver engine name value = .ok w) ↔ (name = "createdAt" → HasText v)) ∧
      ∀ w, reviver engine name value = .ok w → ((∃ text, stringOf engine w = .ok text) ↔ HasText v) := by
  unfold reviver
  split
  · next hname =>
    refine ⟨?_, fun w hw => ?_⟩
    · rw [map_ok_iff, newDate_ok_iff, hvalue]
      exact ⟨fun h _ => h, fun h => h hname⟩
    · obtain ⟨d, hd⟩ := map_ok_iff.mp ⟨w, hw⟩
      have htext := hvalue.mp (newDate_ok_iff.mp ⟨d, hd⟩)
      rw [hd] at hw
      cases hw
      exact iff_of_true ⟨_, by rw [stringOf]⟩ htext
  · next hname =>
    refine ⟨iff_of_true ⟨value, rfl⟩ fun h => absurd h hname, fun w hw => ?_⟩
    cases hw
    exact hvalue

/-- A value whose parts have been revived. -/
theorem revive_parts {name : String} {v : Json} {x : Except Failure α} {f : α → Value} {datable : Prop}
    (hparts : (∃ a, x = .ok a) ↔ datable)
    (hvalue : ∀ a, x = .ok a → ((∃ text, stringOf engine (f a) = .ok text) ↔ HasText v)) :
    ((∃ w, (x.bind fun a => reviver engine name (f a)) = .ok w) ↔
      datable ∧ (name = "createdAt" → HasText v)) ∧
      ∀ w, (x.bind fun a => reviver engine name (f a)) = .ok w →
        ((∃ text, stringOf engine w = .ok text) ↔ HasText v) := by
  cases x with
  | error e =>
    have hnot : ¬ datable := fun h => by
      obtain ⟨a, ha⟩ := hparts.mpr h
      cases ha
    exact ⟨iff_of_false (fun ⟨_, h⟩ => by cases h) fun h => hnot h.1, fun w hw => by cases hw⟩
  | ok a =>
    obtain ⟨hreviver, hkept⟩ := reviver_ok_iff name (hvalue a rfl)
    exact ⟨hreviver.trans (and_iff_right (hparts.mp ⟨a, rfl⟩)).symm, hkept⟩

theorem stringOf_object_ok_iff {values : List (String × Value)} {fields : List (String × Json)}
    (hnames : values.map Prod.fst = fields.map Prod.fst) :
    (∃ text, stringOf engine (.object values) = .ok text) ↔ HasText (.object fields) := by
  have hany : (∀ field ∈ fields, field.1 ≠ "toString") ↔ ∀ value ∈ values, value.1 ≠ "toString" := by
    rw [← List.forall_mem_map (f := Prod.fst) (P := fun name => name ≠ "toString"), ← hnames, List.forall_mem_map]
  rw [stringOf, HasText, hany]
  split
  · next hfound =>
    refine iff_of_false (fun ⟨_, h⟩ => by cases h) fun hnone => ?_
    obtain ⟨value, hmem, hname⟩ := List.any_eq_true.mp hfound
    exact hnone value hmem (of_decide_eq_true hname)
  · next hnone =>
    refine iff_of_true ⟨_, rfl⟩ fun value hmem hname => ?_
    exact hnone (List.any_eq_true.mpr ⟨value, hmem, decide_eq_true hname⟩)

theorem toString_ne_createdAt (index : Nat) : toString index ≠ "createdAt" := by
  intro h
  have hmem : 'c' ∈ Nat.toDigits 10 index := by
    rw [← Nat.toList_repr, show index.repr = "createdAt" from h]
    decide
  exact absurd (Nat.isDigit_of_mem_toDigits (by decide) (by decide) hmem) (by decide)

mutual

/-- A value is revived exactly if its dates are, and has text afterwards exactly
if it had some. -/
theorem revive_ok_iff (engine : Engine) (name : String) : ∀ v : Json,
    ((∃ w, v.revive (reviver engine) name = .ok w) ↔ Datable v ∧ (name = "createdAt" → HasText v)) ∧
      ∀ w, v.revive (reviver engine) name = .ok w → ((∃ text, stringOf engine w = .ok text) ↔ HasText v)
  | .null | .bool _ | .number _ | .string _ => by
    rw [Json.revive, Datable, true_and]
    exact reviver_ok_iff name (iff_of_true ⟨_, by rw [stringOf]⟩ (by rw [HasText]; trivial))
  | .array elements => by
    obtain ⟨hok, htext⟩ := reviveElements_ok_iff engine 0 elements
    rw [Json.revive, Datable]
    refine revive_parts hok fun values hvalues => ?_
    rw [stringOf, HasText, ← htext values hvalues]
    exact map_ok_iff
  | .object fields => by
    obtain ⟨hok, hnames⟩ := reviveFields_ok_iff engine fields
    rw [Json.revive, Datable]
    exact revive_parts hok fun values hvalues => stringOf_object_ok_iff (hnames values hvalues)

theorem reviveElements_ok_iff (engine : Engine) (index : Nat) : ∀ vs : List Json,
    ((∃ ws, reviveElements (reviver engine) index vs = .ok ws) ↔ ElementsDatable vs) ∧
      ∀ ws, reviveElements (reviver engine) index vs = .ok ws →
        ((∃ texts, elementStrings engine ws = .ok texts) ↔ ElementsHaveText vs)
  | [] => by
    rw [reviveElements, ElementsDatable, ElementsHaveText]
    refine ⟨iff_of_true ⟨_, rfl⟩ trivial, fun ws hws => ?_⟩
    cases hws
    exact iff_of_true ⟨_, by rw [elementStrings]⟩ trivial
  | v :: vs => by
    obtain ⟨hhead, htext⟩ := revive_ok_iff engine (toString index) v
    obtain ⟨htail, htexts⟩ := reviveElements_ok_iff engine (index + 1) vs
    have hname : toString index = "createdAt" → HasText v := fun h => absurd h (toString_ne_createdAt index)
    rw [reviveElements, ElementsDatable, ElementsHaveText]
    refine ⟨both_ok_iff.trans (and_congr (hhead.trans (and_iff_left hname)) htail), fun ws hws => ?_⟩
    obtain ⟨w, ws, hw, hrest, rfl⟩ := both_eq_ok.mp hws
    rw [elementStrings, ← htext w hw, ← htexts ws hrest]
    exact both_ok_iff

theorem reviveFields_ok_iff (engine : Engine) : ∀ fields : List (String × Json),
    ((∃ ws, reviveFields (reviver engine) fields = .ok ws) ↔ FieldsDatable fields) ∧
      ∀ ws, reviveFields (reviver engine) fields = .ok ws → ws.map Prod.fst = fields.map Prod.fst
  | [] => by
    rw [reviveFields, FieldsDatable]
    refine ⟨iff_of_true ⟨_, rfl⟩ trivial, fun ws hws => ?_⟩
    cases hws
    rfl
  | (name, v) :: fields => by
    obtain ⟨hhead, -⟩ := revive_ok_iff engine name v
    obtain ⟨htail, hnames⟩ := reviveFields_ok_iff engine fields
    rw [reviveFields, FieldsDatable]
    refine ⟨both_ok_iff.trans (and_congr hhead htail), fun ws hws => ?_⟩
    obtain ⟨w, ws, -, hrest, rfl⟩ := both_eq_ok.mp hws
    exact congrArg (List.cons name) (hnames ws hrest)

end

/-- Only `null` is revived as `null` at the top. -/
theorem revive_eq_null_iff {v : Json} {w : Value} (h : v.revive (reviver engine) "" = .ok w) :
    w = .null ↔ v = .null := by
  cases v with
  | null =>
    cases h
    exact iff_of_true rfl rfl
  | bool b | number n | string s =>
    cases h
    exact iff_of_false Value.noConfusion Json.noConfusion
  | array elements =>
    rw [Json.revive] at h
    cases hparts : reviveElements (reviver engine) 0 elements <;> rw [hparts] at h <;> cases h
    exact iff_of_false Value.noConfusion Json.noConfusion
  | object fields =>
    rw [Json.revive] at h
    cases hparts : reviveFields (reviver engine) fields <;> rw [hparts] at h <;> cases h
    exact iff_of_false Value.noConfusion Json.noConfusion

/-- The listener gets something of a payload exactly if it is legible. -/
theorem parseMessage_iff_legible {payload : String} :
    (∃ value, parseMessage engine payload = .ok value ∧ value ≠ .null) ↔ Legible engine payload := by
  unfold parseMessage Legible
  cases hparse : Json.parse engine.number payload with
  | none => exact iff_of_false (fun ⟨_, h, _⟩ => by cases h) fun ⟨_, h, _⟩ => by cases h
  | some v =>
    obtain ⟨hok, -⟩ := revive_ok_iff engine "" v
    constructor
    · rintro ⟨w, hw, hnull⟩
      exact ⟨v, rfl, mt (revive_eq_null_iff hw).mpr hnull, (hok.mp ⟨w, hw⟩).1⟩
    · rintro ⟨v', hv, hnull, hdatable⟩
      cases hv
      obtain ⟨w, hw⟩ := hok.mpr ⟨hdatable, fun h => absurd h (by decide)⟩
      exact ⟨w, hw, mt (revive_eq_null_iff hw).mp hnull⟩

end Legible

end RedisMessageBus

end Jiffy
