-- SUMMARY: Messages sent after a deletion: they show up exactly when the clock has moved past the clearing instant.
import Jiffy.InMemory.ClearedHistory

/-!
# Messages sent after a deletion

A clearing instant and a creation time are two separate readings of a clock in
milliseconds, compared strictly. A message stored at the very reading of the
deletion is hidden with what came before it.
-/

namespace Jiffy

open Js Async MessagingService

namespace World

/-- The instant up to which `u` has cleared conversation `c`. -/
def clearedAt (w : World) (c u : String) : Option Int :=
  (w.conversations.findById c).bind fun conversation => clearedAtOf conversation u

/-- A message with this id and creation time lies in conversation `c`. -/
def Stored (id c : String) (t : Int) (w : World) : Prop :=
  ∃ m ∈ w.messages.messages, m.id = id ∧ m.conversationId = c ∧ m.createdAt = t

theorem Stored.evolves {id c : String} {t : Int} {w w' : World} (h : Stored id c t w)
    (hw : w.Evolves w') : Stored id c t w' := by
  obtain ⟨m, hm, hid, hc, ht⟩ := h
  obtain ⟨m', hm', hsame⟩ := hw.messages m hm
  rw [Message.SameIdentity] at hsame
  exact ⟨m', hm', by rw [hsame, ← hid], by rw [hsame, ← hc], by rw [hsame, ← ht]⟩

theorem clearedAt_eq_some {w : World} {c u : String} {t : Int} (h : w.clearedAt c u = some t) :
    ∃ conversation, w.conversations.findById c = some conversation ∧
      isParticipant conversation u = true ∧ clearedAtOf conversation u = some t := by
  obtain ⟨conversation, hc, ht⟩ := Option.bind_eq_some_iff.mp h
  refine ⟨conversation, hc, ?_, ht⟩
  obtain ⟨p, hp, -⟩ := Option.bind_eq_some_iff.mp ht
  have huser : p.userId = u := by simpa using List.find?_some hp
  rw [isParticipant_iff, ← huser]
  exact List.mem_map_of_mem (List.mem_of_find?_eq_some hp)

theorem clearedAt_participant (w : World) (c u : String) :
    w.clearedAt c u = (w.participant c u).bind ConversationParticipant.clearedAt :=
  (Option.bind_assoc _ _ _).symm

/-- Writes to other records, and writes of other fields, leave the instant. -/
theorem clearedAt_updateParticipant {w : World} {c c' u u' : String}
    {f : ConversationParticipant → ConversationParticipant} (hid : ∀ p, (f p).userId = p.userId)
    (h : c ≠ c' ∨ u ≠ u' ∨ ∀ p, (f p).clearedAt = p.clearedAt) :
    { w with conversations := w.conversations.updateParticipant c' u' f }.clearedAt c u =
      w.clearedAt c u := by
  rw [clearedAt_participant, clearedAt_participant, w.participant_updateParticipant hid]
  split
  · next hrecord =>
    have hf : ∀ p, (f p).clearedAt = p.clearedAt := by simpa [hrecord] using h
    cases w.participant c u with
    | none => rfl
    | some p => exact hf p
  · rfl

end World

namespace InMemory

theorem clearedAt_perform {i : Input} {w : World} {op : Op} {h : List (ports.Event Failure)}
    {call : PortCall} {c u : String} (hop : op ≠ .deleteConversation c u)
    (ha : admissible i w = true) (hp : contract.Pre op h w call) :
    (perform i call w).2.clearedAt c u = w.clearedAt c u := by
  cases call with
  | createConversation participantIds =>
    simp only [admissible, Bool.and_eq_true, Option.isNone_iff_eq_none] at ha
    simp only [World.clearedAt, perform, InMemoryConversationStore.create,
      InMemoryConversationStore.findById_put]
    split
    · next hc =>
      have hnone : w.conversations.findById c = none := hc ▸ ha.1.2
      rw [Option.bind_some, clearedAtOf_newConversation, hnone]
      rfl
    · rfl
  | markRead c' u' at_ =>
    exact World.clearedAt_updateParticipant (fun _ => rfl) (.inr (.inr fun _ => rfl))
  | clear c' u' t =>
    refine World.clearedAt_updateParticipant (fun _ => rfl) ?_
    obtain ⟨rfl, -⟩ := hp
    by_cases hc : c = c'
    · exact .inr (.inl fun hu => hop (by rw [hc, hu]))
    · exact .inl hc
  | _ => rfl

theorem clock_perform {i : Input} {w : World} (call : PortCall) :
    (perform i call w).2.clock = w.clock := by
  cases call <;> rfl

/-- A stretch of a run in which `u` does not clear conversation `c`. -/
def undisturbed (c u : String) (Stable : World → Prop)
    (hstable : ∀ {s t : World}, Stable s → s.Evolves t → t.clearedAt c u = s.clearedAt c u → Stable t) :
    contract.Regime where
  Allowed op := op ≠ .deleteConversation c u
  Rely s t := s.Evolves t ∧ t.clearedAt c u = s.clearedAt c u
  Stable := Stable
  refl s := ⟨.refl s, rfl⟩
  trans h h' := ⟨h.1.trans h'.1, h'.2.trans h.2⟩
  tick hI ha := ⟨(timely_tick hI ha).2, rfl⟩
  arrive _ _ h := by cases h; exact ⟨.refl _, rfl⟩
  perform hop hI ha hp := ⟨(contract.perform hI ha hp).2, clearedAt_perform hop ha hp⟩
  stable hs _ hR := hstable hs hR.1 hR.2

-- ---------------------------------------------------------------------------
-- The send
-- ---------------------------------------------------------------------------

/-- What a settled send has done: it performed the store's `create`, and the
message it returns is the stored one. -/
def HasSent (input : SendMessageInput) : Postcondition ports Failure Reply World Input :=
  fun _ x h s => ∀ m, x = .ok (.message m) →
    World.Stored m.id input.conversationId m.createdAt s ∧ ∃ stored,
      ⟨.createMessage ⟨input.conversationId, input.senderId, input.body⟩, .ok stored⟩ ∈ h ∧
      stored.createdAt = m.createdAt

theorem sendMessage_hasSent {c u : String} {i : Input} {w : World} (input : SendMessageInput) :
    (Op.program (.sendMessage input)).Safe adapter
      ((undisturbed c u (fun _ => True) fun _ _ _ => trivial).conditions (.sendMessage input))
      (HasSent input) i [] w := by
  have hrespects := regime_respects (undisturbed c u (fun _ => True) fun _ _ _ => trivial) (fun h => h.1)
    (.sendMessage input)
  refine safe_sendMessage (Q := HasSent input) hrespects ?_ ?_ ?_
  · intro i e h s m hm
    cases hm
  · intro s s' hs hc hm ht
    obtain ⟨hevolves, htimely⟩ := timely_of_stores hs.1 hc hm ht
    refine ⟨⟨hevolves, ?_⟩, htimely, trivial⟩
    rw [World.clearedAt, hc]
    rfl
  · intro i j h s t t' hws hs ha call stored hst ht' hmessages hmem m hm
    cases hm
    obtain ⟨m', hm', hsame⟩ := hst.1.messages stored (List.mem_append_right _ List.mem_cons_self)
    rw [Message.SameIdentity] at hsame
    have hlive : t.liveMessage stored = m' := by
      rw [World.liveMessage, ← hmessages]
      exact liveMessage_of_mem ht'.1 hm' (by rw [hsame])
    rw [hlive]
    exact ⟨⟨m', hm', rfl, by rw [hsame]; rfl, rfl⟩, stored, hmem, by rw [hsame]⟩

-- ---------------------------------------------------------------------------
-- The reads
-- ---------------------------------------------------------------------------

/-- `u` has cleared conversation `c` at `t₀`, and message `id` of `c` was
stored at `t`. -/
def ClearedThenStored (c u : String) (t₀ : Int) (id : String) (t : Int) (w : World) : Prop :=
  w.clearedAt c u = some t₀ ∧ World.Stored id c t w

section Reads

variable {c u id : String} {t₀ t : Int} {i : Input} {w : World}

/-- The regime of the reads. -/
def reading (c u : String) (t₀ : Int) (id : String) (t : Int) : contract.Regime :=
  undisturbed c u (ClearedThenStored c u t₀ id t) fun h hw hc => ⟨hc.trans h.1, h.2.evolves hw⟩

/-- The stored message passes the filter exactly when it is younger than the
clearing instant. -/
theorem mem_listByConversation_iff (hw : w.Timely) (h : ClearedThenStored c u t₀ id t w)
    {options : ListMessagesOptions} (hbefore : options.before = none) (hlimit : options.limit = none) :
    (∃ m ∈ w.messages.listByConversation c (withCleared options (some t₀)), m.id = id) ↔ t₀ < t := by
  obtain ⟨m₀, hm₀, rfl, hc₀, rfl⟩ := h.2
  have hmem : ∀ m, m ∈ w.messages.listByConversation c (withCleared options (some t₀)) ↔
      m ∈ w.messages.messages ∧ m.conversationId = c ∧ t₀ < m.createdAt := by
    intro m
    have hmem := @InMemoryMessageStore.mem_listByConversation_unlimited w.messages c
      (withCleared options (some t₀)) m hlimit
    rw [hmem]
    simp [withCleared, hbefore]
  constructor
  · rintro ⟨m, hm, hid⟩
    obtain ⟨hmem, -, hlt⟩ := (hmem m).mp hm
    obtain rfl := hw.eq_of_id hmem hm₀ hid
    exact hlt
  · exact fun hlt => ⟨m₀, (hmem m₀).mpr ⟨hm₀, hc₀, hlt⟩, rfl⟩

theorem listMessages_iff :
    (Op.program (.listMessages c u {})).Safe adapter
      ((reading c u t₀ id t).conditions (.listMessages c u {}))
      (fun _ x _ _ => ∀ messages, x = .ok (.messages messages) →
        (id ∈ messages.map (fun m => m.id) ↔ t₀ < t)) i [] w := by
  apply safe_listMessages (regime_respects (reading c u t₀ id t) (fun h => h.1) _)
  · intro i e h s messages hmessages
    cases hmessages
  · intro i h s s' conversation _ hs _ _ hc _ messages hmessages
    cases hmessages
    have hcleared : clearedAtOf conversation u = some t₀ := by
      have := hs.2.1
      rwa [World.clearedAt, hc] at this
    have hiff := @mem_listByConversation_iff c u id t₀ t s hs.1 hs.2 {} rfl rfl
    rw [hcleared, ← hiff]
    simp

theorem listConversations_of_lt (hw : ClearedThenStored c u t₀ id t w) (hlt : t₀ < t) :
    (Op.program (.listConversations u)).Safe adapter
      ((reading c u t₀ id t).conditions (.listConversations u))
      (fun _ x _ _ => ∀ conversations, x = .ok (.conversations conversations) →
        c ∈ conversations.map fun conversation => conversation.id) i [] w := by
  apply safe_listConversations (regime_respects (reading c u t₀ id t) (fun h => h.1) _)
  intro i h s s' hws hs _ _ queries conversations hconversations
  cases hconversations
  obtain ⟨conversation₀, hc₀, hu₀, -⟩ := World.clearedAt_eq_some hw.1
  have hid := w.conversations.keyed hc₀
  have hlive := (liveConversation_of_find hc₀ hws.1).1
  generalize hconversation : s.liveConversation conversation₀ = conversation at hlive
  have hcleared : clearedAtOf conversation u = some t₀ := by
    have := hs.2.1
    rwa [World.clearedAt, hlive] at this
  -- The preview finds a message, so the filter keeps the conversation.
  obtain ⟨m, hm, -⟩ := (@mem_listByConversation_iff c u id t₀ t s hs.1 hs.2 {} rfl rfl).mpr hlt
  have hpreview := @InMemoryMessageStore.listByConversation_one_ne_nil s.messages c
    (withCleared {} (some t₀)) m hm
  obtain ⟨m₁, rest, hhead⟩ := List.exists_cons_of_ne_nil hpreview
  have hquery : previewQuery u conversation ∈ queries := by
    refine List.mem_map_of_mem ?_
    rw [← hconversation]
    exact List.mem_map_of_mem ((World.mem_findByParticipant w).mpr ⟨hid.symm ▸ hc₀, hu₀⟩)
  have hidc : conversation.id = c := s.conversations.keyed hlive
  rw [List.mem_map]
  refine ⟨{ s'.liveConversation conversation with lastMessage := some (some (s'.liveMessage m₁)) },
    ?_, (s'.liveConversation_id conversation).trans hidc⟩
  refine List.mem_filterMap.mpr ⟨_, List.mem_map_of_mem hquery, ?_⟩
  simp only [previewQuery, hcleared, hidc]
  have hlist : s.messages.listByConversation c (withCleared { limit := some (.finite 1) } (some t₀)) =
      m₁ :: rest := hhead
  rw [hlist]
  simp

end Reads

-- ---------------------------------------------------------------------------
-- The run
-- ---------------------------------------------------------------------------

theorem clearedAt_of_settled {clock : Int} {ls : List (Label Input Op)} {c₁ : State} {d : Nat}
    {c u : String} {reply : Reply} (h : system.runs (.idle (World.init clock)) ls = some c₁)
    (hd : c₁.Settled d (.deleteConversation c u) (.ok reply)) :
    ∃ t₀, c₁.world.clearedAt c u = some t₀ := by
  obtain ⟨t, hdone⟩ := performed_clear h hd
  obtain ⟨lbl, before, after, hturn, post, hpost⟩ :=
    system.performedIn_of_runs h (not_performed_idle _ _) hdone
  obtain ⟨hholds, hhidden⟩ := hidden_of_performedIn hturn
  obtain ⟨conversation, hc, t₀, -, ht₀⟩ :=
    (hhidden.evolves (contract.runs_holds hholds hpost).2).cleared
  exact ⟨t₀, by rw [World.clearedAt, hc]; exact ht₀⟩

theorem turn_clock {c c' : State} {l : Label Input Op} (τ : system.Turn c l c') :
    τ.state.clock = l.input.now := by
  rw [τ.input_eq]
  rcases τ.origin with ⟨-, -, -, -, harrive⟩ | ⟨-, hstate, -⟩
  · rw [← Option.some.inj harrive]
    rfl
  · rw [hstate]
    rfl

/-- The store's `create` takes its creation time from the turn it runs in. -/
theorem createdAt_of_performedIn {c₀ before after : State} {ls : List (Label Input Op)} {n : Nat}
    {input : NewMessage} {stored : Message} {lbl : Label Input Op} (hb : contract.Holds before)
    (h : system.PerformedIn c₀ ls n ⟨.createMessage input, .ok stored⟩ lbl before after) :
    stored.createdAt = lbl.input.now := by
  obtain ⟨-, τ, hist, s, hclock, -, -, -, hanswer, -⟩ :=
    contract.performedIn_turn (J := fun s t => t.clock = s.clock) (fun _ => rfl)
      (fun h h' => h'.trans h) (fun {_ _ _ _ call} _ _ _ => clock_perform call) hb h
  rw [← turn_clock τ, ← hclock]
  cases hanswer
  rfl

theorem permits_of_calls {c u : String} {ls : List (Label Input Op)} (R : contract.Regime)
    (hR : ∀ op, op ≠ .deleteConversation c u → R.Allowed op)
    (h : ∀ lbl ∈ ls, ∀ id i, lbl ≠ .call id (.deleteConversation c u) i) :
    ∀ lbl ∈ ls, R.Permits lbl := by
  rintro lbl hlbl id op i rfl
  exact hR op fun hop => h _ hlbl id i (by rw [hop])

/-- After a deletion, with no other by the same participant under way or
called: a message that is sent shows up in the conversation exactly when it is
stored at a later clock reading than the clearing instant, and then the
conversation is back in the list. -/
theorem sent_after_clear_visible_iff {clock : Int} {ls₁ ls₂ ls₃ : List (Label Input Op)}
    {c₁ c₂ c₃ : State} {d n l : Nat} {u : String} {reply : Reply} {input : SendMessageInput}
    {m : Message} (h₁ : system.runs (.idle (World.init clock)) ls₁ = some c₁)
    (hd : c₁.Settled d (.deleteConversation input.conversationId u) (.ok reply))
    (hquiet : ∀ id, ¬ c₁.InFlight id (.deleteConversation input.conversationId u))
    (hcalls : ∀ lbl ∈ ls₂ ++ ls₃, ∀ id i, lbl ≠ .call id (.deleteConversation input.conversationId u) i)
    (hn : c₁.calls n = none) (h₂ : system.runs c₁ ls₂ = some c₂)
    (hm : c₂.Settled n (.sendMessage input) (.ok (.message m)))
    (hl : c₂.calls l = none) (h₃ : system.runs c₂ ls₃ = some c₃) :
    ∃ t₀ stored lbl before after, c₁.world.clearedAt input.conversationId u = some t₀ ∧
      system.PerformedIn c₁ ls₂ n
        ⟨.createMessage ⟨input.conversationId, input.senderId, input.body⟩, .ok stored⟩ lbl before
        after ∧
      (∀ messages,
        c₃.Settled l (.listMessages input.conversationId u {}) (.ok (.messages messages)) →
        (m.id ∈ messages.map (fun m => m.id) ↔ t₀ < lbl.input.now)) ∧
      (∀ conversations, c₃.Settled l (.listConversations u) (.ok (.conversations conversations)) →
        t₀ < lbl.input.now →
        input.conversationId ∈ conversations.map fun conversation => conversation.id) := by
  obtain ⟨t₀, ht₀⟩ := clearedAt_of_settled h₁ hd
  have hholds₁ := (contract.runs_holds (idle_holds clock) h₁).1
  generalize hc : input.conversationId = c at *
  have hcalls₂ := fun lbl hlbl => hcalls lbl (List.mem_append_left ls₃ hlbl)
  have hcalls₃ := fun lbl hlbl => hcalls lbl (List.mem_append_right ls₂ hlbl)
  let R := undisturbed c u (fun _ => True) fun _ _ _ => trivial
  have hR : R.InForce c₁ := ⟨hholds₁, trivial, by
    rintro id op h k hcall rfl
    exact hquiet id ⟨h, k, hcall⟩⟩
  obtain ⟨hR₂, hrely⟩ := R.runs hR (permits_of_calls R (fun _ h => h) hcalls₂) h₂
  obtain ⟨hist, hcall⟩ := hm
  obtain ⟨_, s, hs, -, -, hQ⟩ := R.follow (fun _ _ _ => sendMessage_hasSent input) hR
    (permits_of_calls R (fun _ h => h) hcalls₂) hn h₂ hcall
  obtain ⟨hstored, stored, hevent, hcreated⟩ := hQ m rfl
  have hnot : ¬ c₁.Performed n
      ⟨.createMessage ⟨input.conversationId, input.senderId, input.body⟩, .ok stored⟩ := by
    rintro ⟨_, hcall', -⟩
    rw [hn] at hcall'
    cases hcall'
  obtain ⟨lbl, before, after, hturn, -⟩ := system.performedIn_of_runs h₂ hnot ⟨_, hcall, hevent⟩
  obtain ⟨pre, -, -, hpre⟩ := hturn.split
  have hcreatedAt := createdAt_of_performedIn (contract.runs_holds hholds₁ hpre).1 hturn
  refine ⟨t₀, stored, lbl, before, after, ht₀, hc ▸ hturn, ?_⟩
  rw [← hcreatedAt, hcreated]
  let R' := reading c u t₀ m.id m.createdAt
  have hR' : R'.InForce c₂ := ⟨hR₂.holds, ⟨hrely.2.trans ht₀, hc ▸ hstored.evolves hs.1⟩, hR₂.allowed⟩
  constructor
  · rintro messages ⟨hist, hcall⟩
    obtain ⟨_, _, -, -, -, hQ⟩ := R'.follow (fun _ _ _ => listMessages_iff) hR'
      (permits_of_calls R' (fun _ h => h) hcalls₃) hl h₃ hcall
    exact hQ _ rfl
  · rintro conversations ⟨hist, hcall⟩ hlt
    obtain ⟨_, _, -, -, -, hQ⟩ := R'.follow (fun _ hw _ => listConversations_of_lt hw hlt) hR'
      (permits_of_calls R' (fun _ h => h) hcalls₃) hl h₃ hcall
    exact hQ _ rfl

/-- Ann creates a conversation with Bob and deletes it at reading 5. -/
def createThenClear : List (Label Input Op) :=
  Label.turns 0 (.createConversation "ann" ["ann", "bob"]) (.allowAll 1 "c") 1 ++
  [.resume 0 (.allowAll 1 "x")] ++
  Label.turns 1 (.deleteConversation "c" "ann") (.allowAll 5 "x") 3

/-- Bob sends a message that is stored at reading `now`. -/
def thenSend (now : Int) : List (Label Input Op) :=
  Label.turns 2 (.sendMessage ⟨"c", "bob", "hello"⟩) (.allowAll 5 "x") 2 ++
  [.resume 2 (.allowAll now "m"), .resume 2 (.allowAll now "x")]

/-- Bob's send reads 5 in its first turns, and then `now`. -/
theorem now_of_mem_thenSend {now : Int} {lbl : Label Input Op} (h : lbl ∈ thenSend now) :
    lbl.input.now = 5 ∨ lbl.input.now = now := by
  have hnows : (thenSend now).map (fun l => l.input.now) = [5, 5, 5, now, now] := rfl
  have hmem : lbl.input.now ∈ (thenSend now).map fun l => l.input.now := List.mem_map_of_mem h
  simpa [hnows] using hmem

theorem createThenClear_quiet {c₁ : State}
    (h : system.runs (.idle (World.init 0)) createThenClear = some c₁) (id : Nat) :
    ¬ c₁.InFlight id (.deleteConversation "c" "ann") := by
  rintro ⟨hist, k, hcall⟩
  by_cases hid : id ∈ createThenClear.map Label.id
  · have hstatus : (c₁.calls id).map (fun call => call.status.isSettled) = some true := by
      have hids : id = 0 ∨ id = 1 := by simpa [createThenClear, Label.turns, Label.id] using hid
      rw [show c₁ = _ from (Option.some.inj h).symm]
      rcases hids with rfl | rfl <;> rfl
    rw [hcall] at hstatus
    cases hstatus
  · rw [system.runs_calls h hid] at hcall
    cases hcall

/-- The instant of the deletion is 5. Bob's message is stored in a turn that
reads 6, one millisecond later, and it is listed. -/
theorem sent_after_clear_next_reading :
    ∃ (c₁ c₂ c₃ : State) (m stored : Message) (lbl : Label Input Op) (before after : State),
      system.runs (.idle (World.init 0)) createThenClear = some c₁ ∧
      c₁.world.clearedAt "c" "ann" = some 5 ∧
      system.runs c₁ (thenSend 6) = some c₂ ∧
      c₂.Settled 2 (.sendMessage ⟨"c", "bob", "hello"⟩) (.ok (.message m)) ∧
      system.PerformedIn c₁ (thenSend 6) 2 ⟨.createMessage ⟨"c", "bob", "hello"⟩, .ok stored⟩ lbl before
        after ∧ lbl.input.now = 6 ∧
      system.runs c₂ (Label.turns 3 (.listMessages "c" "ann" {}) (.allowAll 6 "x") 3) = some c₃ ∧
      c₃.Settled 3 (.listMessages "c" "ann" {}) (.ok (.messages [m])) := by
  have h₁ : system.runs (.idle (World.init 0)) createThenClear = some _ := rfl
  have hquiet := createThenClear_quiet h₁
  obtain ⟨t₀, stored, lbl, before, after, ht₀, hturn, hiff, -⟩ :=
    @sent_after_clear_visible_iff 0 createThenClear (thenSend 6)
      (Label.turns 3 (.listMessages "c" "ann" {}) (.allowAll 6 "x") 3) _ _ _ 1 2 3 "ann" .done
      ⟨"c", "bob", "hello"⟩ _ h₁ ⟨_, rfl⟩ hquiet (by simp [thenSend, Label.turns]) rfl rfl ⟨_, rfl⟩ rfl rfl
  have hfive : t₀ = 5 := (Option.some.inj ht₀).symm
  -- The message is listed, so its turn reads later than the instant.
  have hlater : t₀ < lbl.input.now := (hiff _ ⟨_, rfl⟩).mp (List.mem_cons_self ..)
  have hread : lbl.input.now = 5 ∨ lbl.input.now = 6 := by
    obtain ⟨pre, post, hlabels, -⟩ := hturn.split
    exact now_of_mem_thenSend (hlabels ▸ List.mem_append_right pre List.mem_cons_self)
  exact ⟨_, _, _, _, stored, lbl, before, after, h₁, rfl, rfl, ⟨_, rfl⟩, hturn, by omega, rfl, ⟨_, rfl⟩⟩

/-- Stored at the deletion's own reading, it is nowhere. -/
theorem sent_after_clear_same_reading :
    ∃ (c₁ c₂ c₃ : State) (m : Message),
      system.runs (.idle (World.init 0)) createThenClear = some c₁ ∧
      c₁.Settled 1 (.deleteConversation "c" "ann") (.ok .done) ∧
      system.runs c₁ (thenSend 5) = some c₂ ∧
      c₂.Settled 2 (.sendMessage ⟨"c", "bob", "hello"⟩) (.ok (.message m)) ∧
      system.runs c₂ (Label.turns 3 (.listMessages "c" "ann" {}) (.allowAll 5 "x") 3 ++
        Label.turns 4 (.listConversations "ann") (.allowAll 5 "x") 2) = some c₃ ∧
      c₃.Settled 3 (.listMessages "c" "ann" {}) (.ok (.messages [])) ∧
      c₃.Settled 4 (.listConversations "ann") (.ok (.conversations [])) :=
  ⟨_, _, _, _, rfl, ⟨_, rfl⟩, rfl, ⟨_, rfl⟩, rfl, ⟨_, rfl⟩, ⟨_, rfl⟩⟩

end InMemory

end Jiffy
