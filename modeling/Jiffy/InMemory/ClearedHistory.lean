-- SUMMARY: A cleared conversation under interleaved calls: what was there stays hidden, and what is sent later shows up.
import Jiffy.InMemory.Interference

/-!
# Cleared history

`deleteConversation` hides a conversation's history from its caller by one
instant. That instant is at least the creation time of everything stored before
it, and every read compares against it or a later one.
-/

namespace Jiffy

open Js Async MessagingService

namespace InMemory

/-- `u` cleared conversation `c` at `t` or later, and the messages `ids` are no
younger than `t`. -/
structure Hidden (c u : String) (t : Int) (ids : List String) (w : World) : Prop where
  cleared : ∃ conversation, w.conversations.findById c = some conversation ∧
    ∃ t', t ≤ t' ∧ clearedAtOf conversation u = some t'
  old : ∀ id ∈ ids, ∃ m ∈ w.messages.messages, m.id = id ∧ m.createdAt ≤ t

section Hidden

variable {c u : String} {t : Int} {ids : List String} {w w' : World}

theorem Hidden.evolves (h : Hidden c u t ids w) (hw : w.Evolves w') : Hidden c u t ids w' where
  cleared := by
    obtain ⟨conversation, hc, t₁, ht₁, hcleared⟩ := h.cleared
    obtain ⟨conversation', hc', -, hmono⟩ := hw.conversations hc
    obtain ⟨t₂, ht₂, hcleared'⟩ := hmono u t₁ hcleared
    exact ⟨conversation', hc', t₂, ht₁.trans ht₂, hcleared'⟩
  old id hid := by
    obtain ⟨m, hm, rfl, hle⟩ := h.old id hid
    obtain ⟨m', hm', hsame⟩ := hw.messages m hm
    rw [Message.SameIdentity] at hsame
    exact ⟨m', hm', by rw [hsame], by rw [hsame]; exact hle⟩

/-- A read of the conversation for `u` shows none of them, whatever the
options. -/
theorem Hidden.not_listed (h : Hidden c u t ids w) (hw : w.Timely) {conversation : Conversation}
    (hc : w.conversations.findById c = some conversation) {options : ListMessagesOptions} {m : Message}
    (hm : m ∈ w.messages.listByConversation c (withCleared options (clearedAtOf conversation u))) :
    m.id ∉ ids := by
  obtain ⟨conversation', hc', t', htt', hcleared⟩ := h.cleared
  rw [hc] at hc'
  cases hc'
  rw [hcleared] at hm
  obtain ⟨hmem, -, hafter⟩ := InMemoryMessageStore.mem_of_mem_listByConversation hm
  have hlt : t' < m.createdAt := by simpa using hafter _ rfl
  intro hid
  obtain ⟨m₀, hm₀, hid₀, hle⟩ := h.old _ hid
  obtain rfl := hw.eq_of_id hm₀ hmem hid₀
  omega

end Hidden

/-- Anything may be called while `ids` stay hidden from `u`. -/
def keepsHidden (c u : String) (t : Int) (ids : List String) : contract.Regime :=
  contract.regime (Hidden c u t ids) fun h _ hw => h.evolves hw

/-- Neither way of reading shows one of `ids` in conversation `c`. -/
def ShowsNone (c : String) (ids : List String) : Reply → Prop
  | .messages messages => ∀ m ∈ messages, m.id ∉ ids
  | .conversations conversations => ∀ conversation ∈ conversations, conversation.id = c →
      ∀ m, conversation.lastMessage = some (some m) → m.id ∉ ids
  | _ => True

section Reads

variable {c u : String} {t : Int} {ids : List String} {i : Input} {w : World}

/-- What a reading call of `u` establishes under `keepsHidden`. -/
def ReadsNone (c : String) (ids : List String) : Postcondition ports Failure Reply World Input :=
  fun _ x _ _ => ∀ reply, x = .ok reply → ShowsNone c ids reply

theorem listMessages_hidden (options : ListMessagesOptions) :
    (Op.program (.listMessages c u options)).Safe adapter
      ((keepsHidden c u t ids).conditions (.listMessages c u options)) (ReadsNone c ids) i [] w := by
  apply safe_listMessages (regime_respects (keepsHidden c u t ids) (fun h => h) _)
  · intro i e h s reply hreply
    cases hreply
  · intro i h s s' conversation _ hs _ _ hc _ reply hreply
    cases hreply
    intro m hm
    obtain ⟨m₀, hm₀, rfl⟩ := List.mem_map.mp hm
    rw [World.liveMessage_id]
    exact hs.2.not_listed hs.1 hc hm₀

theorem listConversations_hidden :
    (Op.program (.listConversations u)).Safe adapter
      ((keepsHidden c u t ids).conditions (.listConversations u)) (ReadsNone c ids) i [] w := by
  apply safe_listConversations (regime_respects (keepsHidden c u t ids) (fun h => h) _)
  intro i h s s' hws hs _ _ queries reply hreply
  cases hreply
  intro conversation hmem hid m hlast
  simp only [withPreviews, List.mem_filterMap, List.mem_map, queries] at hmem
  obtain ⟨_, ⟨_, ⟨_, ⟨conversation₀, hfound, rfl⟩, rfl⟩, rfl⟩, hkept⟩ := hmem
  simp only [Option.ite_none_right_eq_some, Option.some.injEq] at hkept
  obtain ⟨-, rfl⟩ := hkept
  simp only [previewQuery, World.liveConversation_id] at hid hlast
  -- The preview's query was made from the conversation as it was in `s`.
  have hc := (World.mem_findByParticipant _).mp hfound
  have hlive := (liveConversation_of_find hc.1 hws).1
  rw [hid] at hlive hlast
  rw [Option.some.injEq, List.head?_map, Option.map_eq_some_iff] at hlast
  obtain ⟨m₀, hm₀, rfl⟩ := hlast
  rw [World.liveMessage_id]
  exact hs.2.not_listed hs.1 hlive (List.mem_of_mem_head? hm₀)

end Reads

theorem not_performed_idle {w : World} (id : Nat) (e : ports.Event Failure) :
    ¬ (Config.idle w : State).Performed id e := by
  rintro ⟨_, hcall, -⟩
  cases hcall

/-- A settled deletion has cleared. -/
theorem performed_clear {clock : Int} {ls : List (Label Input Op)}
    {c₁ : State} {d : Nat} {c u : String} {reply : Reply}
    (h : system.runs (.idle (World.init clock)) ls = some c₁)
    (hd : c₁.Settled d (.deleteConversation c u) (.ok reply)) :
    ∃ t, c₁.Performed d ⟨.clear c u t, .ok ()⟩ := by
  let R := contract.regime (fun _ => True) fun _ _ _ => trivial
  have hR : R.InForce (.idle (World.init clock)) :=
    ⟨contract.holds_idle (timely_init clock), trivial, fun h => by cases h⟩
  obtain ⟨hist, hcall⟩ := hd
  have hsafe : ∀ {i : Input} {s : World}, (Op.program (.deleteConversation c u)).Safe adapter
      (R.conditions (.deleteConversation c u))
      (fun _ x h _ => ∀ reply, x = .ok reply → ∃ t, ⟨.clear c u t, .ok ()⟩ ∈ h) i [] s := by
    intro i s
    apply safe_deleteConversation (regime_respects R (fun h => h) _)
    · intro i e h s reply hreply
      cases hreply
    · exact fun _ hc hu => ⟨rfl, rfl, _, hc, hu⟩
    · exact fun now hmem reply _ => ⟨now, hmem⟩
  obtain ⟨_, _, -, -, -, hQ⟩ :=
    R.follow (fun _ _ _ => hsafe) hR (fun _ _ _ _ _ _ => trivial) rfl h hcall
  obtain ⟨t, ht⟩ := hQ reply rfl
  exact ⟨t, _, hcall, ht⟩

theorem idle_holds (clock : Int) :
    contract.Holds (.idle (World.init clock) : State) :=
  contract.holds_idle (timely_init clock)

/-- From the turn that clears on, everything stored before it is hidden. -/
theorem hidden_of_performedIn {clock : Int} {ls : List (Label Input Op)}
    {before after : State} {d : Nat} {c u : String} {t : Int}
    {lbl : Label Input Op}
    (h : system.PerformedIn (.idle (World.init clock)) ls d ⟨.clear c u t, .ok ()⟩ lbl before after) :
    contract.Holds after ∧
      Hidden c u t (before.world.messages.messages.map fun m => m.id) after.world := by
  obtain ⟨pre, _, -, hpre⟩ := h.split
  have hbefore := (contract.runs_holds (idle_holds clock) hpre).1
  obtain ⟨-, τ, hist, s, hτs, hs, ha, ⟨-, rfl, conversation, hc, hu⟩, -, hafter⟩ :=
    contract.performedIn_turn World.Evolves.refl World.Evolves.trans
      (fun hI ha hp => (contract.perform hI ha hp).2) hbefore h
  obtain ⟨-, hτ, -, -⟩ := contract.turn_safe hbefore τ
  have hbs : before.world.Evolves s := World.Evolves.trans hτ hτs
  refine ⟨contract.step_holds hbefore h.step, Hidden.evolves ⟨?_, fun id hid => ?_⟩ hafter⟩
  · refine ⟨conversation.mutateParticipant u fun p => { p with clearedAt := some s.clock },
      ?_, s.clock, le_refl _, clearedAtOf_clear _ hu⟩
    exact (s.conversations.findById_updateParticipant c u _ c).trans (by rw [if_pos rfl, hc]; rfl)
  · obtain ⟨m, hm, rfl⟩ := List.mem_map.mp hid
    obtain ⟨m', hm', hsame⟩ := hbs.messages m hm
    rw [Message.SameIdentity] at hsame
    exact ⟨m', hm', by rw [hsame], hs.created m' hm'⟩

/-- Once a `deleteConversation` has resolved, no read that its caller starts
later shows a message stored before the deletion took effect, in any run. -/
theorem cleared_stays_hidden {clock : Int} {ls₁ ls₂ : List (Label Input Op)}
    {c₁ c₂ : State} {d l : Nat} {c u : String} {reply : Reply}
    (h₁ : system.runs (.idle (World.init clock)) ls₁ = some c₁)
    (hd : c₁.Settled d (.deleteConversation c u) (.ok reply))
    (hl : c₁.calls l = none) (h₂ : system.runs c₁ ls₂ = some c₂) :
    ∃ t lbl before after,
      system.PerformedIn (.idle (World.init clock)) ls₁ d ⟨.clear c u t, .ok ()⟩ lbl before after ∧
      (∀ options messages,
        c₂.Settled l (.listMessages c u options) (.ok (.messages messages)) →
        ∀ m ∈ messages, m.id ∉ before.world.messages.messages.map fun old => old.id) ∧
      (∀ conversations, c₂.Settled l (.listConversations u) (.ok (.conversations conversations)) →
        ∀ conversation ∈ conversations, conversation.id = c →
        ∀ m, conversation.lastMessage = some (some m) →
          m.id ∉ before.world.messages.messages.map fun old => old.id) := by
  obtain ⟨t, hdone⟩ := performed_clear h₁ hd
  obtain ⟨lbl, before, after, hturn, post, hpost⟩ :=
    system.performedIn_of_runs h₁ (not_performed_idle _ _) hdone
  refine ⟨t, lbl, before, after, hturn, ?_⟩
  obtain ⟨hholds, hhidden⟩ := hidden_of_performedIn hturn
  generalize before.world.messages.messages.map (fun m => m.id) = ids at hhidden
  obtain ⟨hholds₁, hevolves⟩ := contract.runs_holds hholds hpost
  let R := keepsHidden c u t ids
  have hR : R.InForce c₁ := ⟨hholds₁, hhidden.evolves hevolves, fun _ => trivial⟩
  have hall : ∀ lbl ∈ ls₂, R.Permits lbl := fun _ _ _ _ _ _ => trivial
  constructor
  · rintro options messages ⟨hist, hcall⟩
    obtain ⟨_, _, -, -, -, hQ⟩ :=
      R.follow (fun _ _ _ => listMessages_hidden options) hR hall hl h₂ hcall
    exact hQ _ rfl
  · rintro conversations ⟨hist, hcall⟩
    obtain ⟨_, _, -, -, -, hQ⟩ :=
      R.follow (fun _ _ _ => listConversations_hidden) hR hall hl h₂ hcall
    exact hQ _ rfl

/-- Ann creates a conversation with Bob, Bob's message is stored while Ann's
deletion is under way, and Ann reads the conversation again. -/
theorem cleared_stays_hidden_overlapping :
    ∃ (c₁ c₂ : State) (t : Int) (lbl : Label Input Op) (before after : State)
      (ls : List (Label Input Op)),
      system.runs (.idle (World.init 0)) ls = some c₁ ∧
      c₂.Settled 3 (.listMessages "c" "ann" {}) (.ok (.messages [])) ∧
      system.PerformedIn (.idle (World.init 0)) ls 2 ⟨.clear "c" "ann" t, .ok ()⟩ lbl before after ∧
      (∀ options messages,
        c₂.Settled 3 (.listMessages "c" "ann" options) (.ok (.messages messages)) →
        ∀ m ∈ messages, m.id ∉ before.world.messages.messages.map fun old => old.id) := by
  let ls : List (Label Input Op) :=
    Label.turns 0 (.createConversation "ann" ["ann", "bob"]) (.allowAll 1 "c") 1 ++
    [.resume 0 (.allowAll 1 "x")] ++
    Label.turns 1 (.sendMessage ⟨"c", "bob", "hello"⟩) (.allowAll 2 "x") 2 ++
    Label.turns 2 (.deleteConversation "c" "ann") (.allowAll 3 "x") 1 ++
    [.resume 1 (.allowAll 4 "m"), .resume 2 (.allowAll 4 "y"), .resume 2 (.allowAll 5 "y"),
      .resume 1 (.allowAll 5 "y")]
  let ls' : List (Label Input Op) :=
    Label.turns 3 (.listMessages "c" "ann" {}) (.allowAll 5 "y") 3
  have h₁ : system.runs (.idle (World.init 0)) ls = some _ := rfl
  obtain ⟨t, lbl, before, after, hturn, hlist, -⟩ :=
    @cleared_stays_hidden 0 ls ls' _ _ 2 3 "c" "ann" .done h₁ ⟨_, rfl⟩ rfl rfl
  exact ⟨_, _, t, lbl, before, after, ls, h₁, ⟨_, rfl⟩, hturn, hlist⟩

end InMemory

end Jiffy
