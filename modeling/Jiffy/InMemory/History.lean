-- SUMMARY: Reading a conversation back page by page, with the creation time of each page's first message as the next cursor.
import Jiffy.InMemory.Calls
import Jiffy.InMemory.Stores
import Jiffy.Lib.Paging
import Jiffy.InMemory.Lifecycle

/-!
# Paging through history

`listMessages` with a `limit` gives the newest messages, and `before` leaves
out what is not strictly older. A client that passes on the creation time of the
oldest message it has reads backwards until nothing is left.
-/

namespace Jiffy

open Js Async MessagingService Paging

namespace InMemory

/-- The client's loop: pages of `n`, newest first, up to the empty one. Each
call has its own turn `env`. -/
def readBack (c u : String) (n : Nat) (env : Nat → Input) :
    Nat → Option Date → World → Option (Except Failure (List (List Message)))
  | 0, _, _ => none
  | fuel + 1, before, w =>
    match serve (env fuel) (.listMessages c u { limit := some (.finite n), before }) w with
    | (.ok (.messages (m :: page)), w') =>
      (readBack c u n env fuel (some (Date.of m.createdAt)) w').map (·.map ((m :: page) :: ·))
    | (.ok _, _) => some (.ok [])
    | (.error e, _) => some (.error e)

theorem serve_listMessages {i : Input} {w : World} {c u : String} {conversation : Conversation}
    (hc : w.conversations.findById c = some conversation) (hu : isParticipant conversation u = true)
    (options : ListMessagesOptions) :
    serve i (.listMessages c u options) w =
      (.ok (.messages (w.messages.listByConversation c
        (withCleared options (clearedAtOf conversation u)))), adapter.tick i w) := by
  have hreq : (adapter.tick i w).requireParticipant c u = .ok conversation :=
    World.requireParticipant_of_participant hc hu
  simp only [serve, Op.program, Proc.bind_eq_bind, Proc.pure_eq_ret, Adapter.run_map,
    run_listMessages, hreq, Except.map]
  rfl

/-- What `before` leaves of a history. -/
def below (before : Option Int) (history : List Message) : List Message :=
  match before with
  | none => history
  | some b => history.filter fun m => m.createdAt < b

theorem below_below {before : Option Int} {history : List Message} {m : Message}
    (hm : m ∈ below before history) :
    below (some m.createdAt) history =
      (below before history).filter fun m' => m'.createdAt < m.createdAt := by
  cases before with
  | none => rfl
  | some b =>
    have hlt : m.createdAt < b := by simpa using (List.mem_filter.mp hm).2
    simp only [below, List.filter_filter]
    apply List.filter_congr
    intro m' _
    rw [Bool.eq_iff_iff]
    simp only [decide_eq_true_eq, Bool.and_eq_true]
    omega

/-- A page is the end of what `before` leaves. -/
theorem listByConversation_page {store : InMemoryMessageStore} {c : String} {n : Nat} (hn : 0 < n)
    (before cleared : Option Int) :
    store.listByConversation c
        (withCleared { limit := some (.finite n), before := before.map Date.of } cleared) =
      (below before (store.listByConversation c (withCleared {} cleared))).rtake n := by
  have hlimit := @InMemoryMessageStore.listByConversation_limit store c
    (withCleared { before := before.map Date.of } cleared) n hn
  cases before <;> cases cleared <;> refine hlimit.trans (congrArg (List.rtake · n) ?_)
  · rfl
  · rfl
  · simp [InMemoryMessageStore.listByConversation, withCleared, below]
  · simp [InMemoryMessageStore.listByConversation, withCleared, below, List.filter_filter,
      Bool.and_comm]

/-- A listing is sorted by creation time. -/
theorem listByConversation_sorted (store : InMemoryMessageStore) (c : String)
    (options : ListMessagesOptions) :
    (store.listByConversation c options).Pairwise fun m m' => m.createdAt ≤ m'.createdAt := by
  refine List.Pairwise.sublist InMemoryMessageStore.listByConversation_sublist ?_
  simp only [InMemoryMessageStore.listByConversation]
  have hsorted := sortBy_pairwise (fun m : Message => m.createdAt)
    (store.messages.filter fun m => m.conversationId = c)
  cases options.before <;> cases options.after <;> simp only
  · exact hsorted
  · exact hsorted.sublist List.filter_sublist
  · exact hsorted.sublist List.filter_sublist
  · exact (hsorted.sublist List.filter_sublist).sublist List.filter_sublist

/-- The client's loop reads the pages of the full listing. -/
theorem readBack_eq {c u : String} {n : Nat} (hn : 0 < n) (env : Nat → Input) (fuel : Nat)
    {conversation : Conversation} (hu : isParticipant conversation u = true) :
    ∀ (before : Option Int) (w : World), w.conversations.findById c = some conversation →
      readBack c u n env fuel (before.map Date.of) w =
        (pages (fun m => m.createdAt) n fuel (below before (w.messages.listByConversation c
          (withCleared {} (clearedAtOf conversation u))))).map .ok := by
  induction fuel with
  | zero => exact fun _ _ _ => rfl
  | succ fuel ih =>
    intro before w hc
    rw [readBack, serve_listMessages hc hu, listByConversation_page hn, pages]
    generalize hhistory : w.messages.listByConversation c _ = history
    cases hpage : (below before history).rtake n with
    | nil => rfl
    | cons m page =>
      have hm : m ∈ below before history := by
        have : m ∈ (below before history).rtake n := hpage ▸ List.mem_cons_self
        exact List.mem_of_mem_drop this
      have hnext := ih (some m.createdAt) (adapter.tick (env fuel) w) hc
      rw [show (adapter.tick (env fuel) w).messages = w.messages from rfl, hhistory,
        below_below hm] at hnext
      simp only [Option.map_some] at hnext
      simp only [hnext, Option.map_map]
      rfl

/-- A participant who reads back page by page comes to an end, with pages that
are part of the full listing in its order; and with the whole of it exactly
when no page's edge falls between two messages of one creation time. -/
theorem readBack_pages {w : World} {c u : String} {conversation : Conversation} {n : Nat}
    (hn : 0 < n) (hc : w.conversations.findById c = some conversation)
    (hu : u ∈ conversation.userIds) (env : Nat → Input) :
    ∃ history, (∀ i, (serve i (.listMessages c u {}) w).1 = .ok (.messages history)) ∧
      ∀ fuel, history.length < fuel → ∃ pages,
        readBack c u n env fuel none w = some (.ok pages) ∧
        pages.reverse.flatten.Sublist history ∧
        (pages.reverse.flatten = history ↔ Unsplit (fun m => m.createdAt) n history) := by
  rw [← isParticipant_iff] at hu
  refine ⟨_, fun i => by rw [serve_listMessages hc hu], fun fuel hfuel => ?_⟩
  obtain ⟨ps, hps⟩ := @pages_terminates _ _ _ (fun m : Message => m.createdAt) n _ _ hfuel
  have hsorted := listByConversation_sorted w.messages c (withCleared {} (clearedAtOf conversation u))
  refine ⟨ps, ?_, pages_sublist hsorted hps, pages_complete_iff hn hsorted hps⟩
  have hread := readBack_eq hn env fuel hu none w hc
  rw [below, hps] at hread
  exact hread

/-- Three messages, the last two of one reading. -/
def threeMessages : World :=
  [(.allowAll 1 "c", .createConversation "ann" ["ann", "bob"]),
    (.allowAll 2 "m₁", .sendMessage ⟨"c", "ann", "one"⟩),
    (.allowAll 3 "m₂", .sendMessage ⟨"c", "bob", "two"⟩),
    (.allowAll 3 "m₃", .sendMessage ⟨"c", "ann", "three"⟩)].foldl
    (fun w (x : Input × Op) => (serve x.1 x.2 w).2) (World.init 0)

theorem readBack_threeMessages :
    ∃ history pages, history.length = 3 ∧
      (serve (.allowAll 9 "x") (.listMessages "c" "ann" {}) threeMessages).1 =
        .ok (.messages history) ∧
      readBack "c" "ann" 2 (fun _ => .allowAll 9 "x") 4 none threeMessages = some (.ok pages) ∧
      (pages.reverse.flatten = history ↔ Unsplit (fun m => m.createdAt) 2 history) := by
  obtain ⟨history, hhistory, hpages⟩ :=
    @readBack_pages threeMessages "c" "ann" _ 2 (by decide) rfl (by decide) fun _ => .allowAll 9 "x"
  have hlen : history.length = 3 := by
    have hconcrete : (serve (.allowAll 9 "x") (.listMessages "c" "ann" {}) threeMessages).1 =
        .ok (.messages _) := rfl
    rw [hhistory] at hconcrete
    cases hconcrete
    rfl
  obtain ⟨pages, hread, -, hiff⟩ := hpages 4 (by omega)
  exact ⟨history, pages, hlen, hhistory _, hread, hiff⟩

/-- Two messages of one reading, on the edge between two pages: the older one
is in no page. -/
theorem readBack_same_reading :
    ∃ log w history pages, machine.Run (World.init 0) log w ∧
      (serve (.allowAll 9 "x") (.listMessages "c" "ann" {}) w).1 = .ok (.messages history) ∧
      readBack "c" "ann" 1 (fun _ => .allowAll 9 "x") 3 none w = some (.ok pages) ∧
      pages.reverse.flatten ≠ history := by
  have hrun := (Machine.Run.nil (M := machine) (s := World.init 0))
    |>.snoc (i := (.allowAll 1 "c", .createConversation "ann" ["ann", "bob"])) rfl
    |>.snoc (i := (.allowAll 2 "m₁", .sendMessage ⟨"c", "ann", "one"⟩)) rfl
    |>.snoc (i := (.allowAll 2 "m₂", .sendMessage ⟨"c", "bob", "two"⟩)) rfl
  exact ⟨_, _, _, _, hrun, rfl, rfl, by decide⟩

end InMemory

end Jiffy
