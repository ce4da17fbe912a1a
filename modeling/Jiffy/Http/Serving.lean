-- SUMMARY: The HTTP app serving any number of requests at once: what it asks for and on whose behalf, its one response to each, and the size of its metrics.
import Jiffy.Adapters.InMemory
import Jiffy.Http.Admission
import Jiffy.Lib.Transcript
import Mathlib.Data.Finset.Card
import Mathlib.Data.Finset.Prod

/-!
# Serving

Requests arrive at any time and take their turns in any order. Behind the ports
is any adapter; the limiters' store, the verifier, the check of readiness and
the connection to the client answer whatever they like.
-/

namespace Jiffy

open Js Async

namespace HttpApp

/-- What the environment supplies to a turn. -/
structure Surroundings (ι : Type) where
  port : ι
  increment : RateLimiter → String → Except String Nat
  verify : String → Except String VerifiedIdentity
  readinessCheck : Except String Bool
  metrics : Except String String
  /-- whether a response goes out -/
  flush : Except String Unit

/-- What is behind the ports, with the two counters of the app. -/
structure Process (σ : Type) where
  ports : σ
  /-- every `httpRequestsTotal.inc`, by its labels -/
  requestsTotal : List MetricLabels
  messagesPublishedTotal : Nat

variable {σ ι : Type}

/-- Nothing has been counted. -/
def Process.init (ports : σ) : Process σ := ⟨ports, [], 0⟩

/-- An answer from outside. -/
def outside {α : Type} (x : Except String α) (s : Process σ) : Except Failure α × Process σ :=
  (x.mapError Failure.port, s)

variable (A : Adapter ports Failure σ ι)

def reply (i : Surroundings ι) : (call : HttpCall) → Process σ → Except Failure call.Resp × Process σ
  | .port call, s =>
    let (answer, ports) := A.perform i.port call s.ports
    (answer, { s with ports })
  | .increment limiter key, s => outside (i.increment limiter key) s
  | .verify token, s => outside (i.verify token) s
  | .readinessCheck, s => outside i.readinessCheck s
  | .metrics, s => outside i.metrics s
  | .published, s => (.ok (), { s with messagesPublishedTotal := s.messagesPublishedTotal + 1 })
  | .send _, s => outside i.flush s
  | .observe labels, s => (.ok (), { s with requestsTotal := s.requestsTotal ++ [labels] })

/-- What the objects in an answer show now. -/
def refresh (s : Process σ) : (call : HttpCall) → call.Resp → call.Resp
  | .port call, x => A.refresh s.ports call x
  | .increment _ _, x | .verify _, x | .readinessCheck, x | .metrics, x | .published, x | .send _, x
  | .observe _, x => x

/-- The app over any adapter. -/
def system (config : Config) :
    System httpCalls Failure Unit (Process σ) (Surroundings ι) HttpRequest where
  perform := reply A
  refresh := refresh A
  admissible i s := A.admissible i.port s.ports
  tick i s := { s with ports := A.tick i.port s.ports }
  program := serve config
  arrive _ s := some s

variable {A} {config : Config} {ls : List (Label (Surroundings ι) HttpRequest)} {s : Process σ}
  {c : Async.Config httpCalls Failure Unit (Process σ) HttpRequest} {id : Nat} {rq : HttpRequest} {h : History}
  {status : Status httpCalls Failure Unit (Process σ)}

theorem system_fits (rq : HttpRequest) : (rules config rq).Fits (system A config).toAdapter where
  answers i call s := by cases call <;> trivial
  becomes t call x := by cases call <;> trivial

/-- The rules cover every request, whatever the others do. -/
theorem runs_ruled (hruns : (system A config).runs (.idle s) ls = some c)
    (hcall : c.calls id = some ⟨rq, h, status⟩) : (rules config rq).Covers Done h status :=
  System.runs_covered (R := rules config) (Q := fun _ => Done) (fun rq => system_fits rq) (serve_keeps config)
    hruns _ _ _ _ hcall

-- ---------------------------------------------------------------------------
-- Turns
-- ---------------------------------------------------------------------------

theorem respond_within (x : Exchange) (status : Nat) (body : HttpBody) : (respond x status body).Within 1 := by
  refine Proc.Within.bind (m := 1) (n := 0) (.settle (.request Nat.one_pos)) fun sent => ?_
  cases sent with
  | error e => trivial
  | ok _ =>
    simp only
    split
    · exact .perform _ _
    · trivial

theorem answer_within (x : Exchange) (status : Nat) (body : HttpBody) : (answer x status body).Within 1 :=
  Proc.Within.bind (m := 1) (n := 0) (respond_within x status body) fun _ => trivial

theorem onError_within (e : Failure) (x : Exchange) : (onError e x).Within 1 := respond_within _ _ _

section Within

variable {ms : List AppMiddleware} {n : Nat}

theorem chain_within {m : AppMiddleware} {j : Nat} (hm : ∀ x, (m x).Within j)
    (hms : ∀ x, (chain onError ms x).Within n) (hn : 0 < n) (x : Exchange) :
    (chain onError (m :: ms) x).Within (j + n) :=
  .chain_cons (hm x) hms fun e => (onError_within e x).mono hn

theorem router_within {κ : Type} {find : HttpRequest → Option String × Except Failure (Option κ)}
    {handler : κ → Exchange → Proc httpCalls Failure Unit} {j : Nat} (hhandler : ∀ k x, (handler k x).Within j)
    (hms : ∀ x, (chain onError ms x).Within n) (hn : 0 < n) (x : Exchange) :
    (chain onError (router find handler ++ ms) x).Within (j + n) := by
  have hrun := chain_within (j := j) (m := runRoute find handler) (fun x => ?_) hms hn
  · refine (chain_within (j := 0) (fun x => ?_) hrun (Nat.add_pos_right j hn) x).mono (Nat.zero_add _).le
    trivial
  · refine (Proc.Within.bind (m := 0) (n := j) (.ofExcept _ _) fun found => ?_).mono (Nat.zero_add j).le
    cases found with
    | none => trivial
    | some k => exact Proc.Within.bind (m := j) (n := 0) (hhandler k x) fun _ => trivial

theorem rateLimiter_within (ipKey : String → String) (limiter : RateLimiter) (x : Exchange) :
    (rateLimiter ipKey limiter x).Within 2 := by
  refine Proc.Within.bind (m := 1) (n := 1) (.request Nat.one_pos) fun totalHits => ?_
  split
  · exact answer_within _ _ _
  · trivial

theorem authenticate_within (x : Exchange) : (authenticate x).Within 2 := by
  unfold authenticate
  cases bearerToken x.request.authorization with
  | none => exact (answer_within _ _ _).mono (by decide)
  | some token =>
    refine Proc.Within.bind (m := 1) (n := 1) (.settle (.request Nat.one_pos)) fun verified => ?_
    cases verified with
    | error e => exact answer_within _ _ _
    | ok identity => trivial

/-- What the core asks for is asked for in the same turns. -/
theorem dispatch_within (reader : TextReader) (request : Request) :
    ((ConversationsRouter.dispatch reader request).implement expression).Within 4 := by
  have hdispatched := ConversationsRouter.dispatch_dispatched reader request
  refine .implement (fun call (hcall : PortCall.Unawaited call) => ?_) ?_ hdispatched.onSpot hdispatched.within
  · cases call <;> first | exact .perform _ _ | exact hcall.elim
  · intro call
    cases call <;> first | exact .request Nat.one_pos | exact .perform _ _

theorem conversationsRouter_within (config : Config) (hms : ∀ x, (chain onError ms x).Within n) (hn : 0 < n)
    (x : Exchange) : (chain onError (conversationsRouter config ++ ms) x).Within (5 + n) := by
  refine router_within (fun endpoint x => ?_) hms hn x
  refine Proc.Within.bind (m := 4) (n := 1) (dispatch_within _ _) fun response => ?_
  refine Proc.Within.bind (m := 0) (n := 1) ?_ fun _ => respond_within _ _ _
  unfold countPublished
  split
  · exact .perform _ _
  · trivial

theorem healthRouter_within (config : Config) (hms : ∀ x, (chain onError ms x).Within n) (hn : 0 < n)
    (x : Exchange) : (chain onError (healthRouter config ++ ms) x).Within (2 + n) := by
  refine router_within (fun route x => ?_) hms hn x
  cases route with
  | health => exact (respond_within _ _ _).mono (by decide)
  | ready =>
    refine Proc.Within.bind (m := 1) (n := 1) ?_ fun ready => respond_within _ _ _
    unfold isReady
    split
    · exact Proc.Within.catching (m := 1) (n := 0) (.request Nat.one_pos) fun _ => trivial
    · trivial

theorem metricsRouter_within (config : Config) (hms : ∀ x, (chain onError ms x).Within n) (hn : 0 < n)
    (x : Exchange) : (chain onError (metricsRouter config ++ ms) x).Within (2 + n) :=
  router_within (fun _ _ =>
    Proc.Within.bind (m := 1) (n := 1) (.request Nat.one_pos) fun _ => respond_within _ _ _) hms hn x

end Within

/-- No request waits more often than this. -/
def waits : Nat := 19

theorem serve_within (config : Config) (rq : HttpRequest) : (serve config rq).Within waits := by
  have hnil : ∀ x, (chain onError [] x).Within 1 := fun _ => trivial
  have hend := chain_within (j := 1) (m := notFound) (fun x => answer_within x _ _) hnil Nat.one_pos
  have hconversations := conversationsRouter_within config hend (by decide)
  have huser := chain_within (rateLimiter_within config.ipKey .user) hconversations (by decide)
  have hauth := chain_within authenticate_within huser (by decide)
  have hip := chain_within (rateLimiter_within config.ipKey .ip) hauth (by decide)
  have hmetrics := metricsRouter_within config hip (by decide)
  have hhealth := healthRouter_within config hmetrics (by decide)
  have hjson := chain_within (j := 1) (m := jsonBody config.json) (fun _ => ?_) hhealth (by decide)
  · have htimed := chain_within (j := 0) (m := requestMetrics) (fun _ => trivial) hjson (by decide)
    refine chain_within (j := 1) (m := cors config.corsOrigins) (fun x => ?_) htimed (by decide) { request := rq }
    unfold cors
    simp only
    split
    · exact answer_within _ _ _
    · trivial
  · exact ⟨Nat.one_pos, Proc.Within.bind (m := 0) (n := 0) (.ofExcept _ _) fun _ => trivial⟩

-- ---------------------------------------------------------------------------
-- On whose behalf
-- ---------------------------------------------------------------------------

/-- The user that a request is admitted as is the one that its own token names. -/
theorem Admitted.userId_eq {userId userId' : String} (h₁ : Admitted config rq userId h) (h₂ : Admitted config rq userId' h) :
    userId = userId' := by
  obtain ⟨_, identity, n, rest, ⟨_, token, ⟨-, m, -, rfl⟩, -, rfl⟩, huser, -, rfl⟩ := h₁
  obtain ⟨_, identity', n', rest', ⟨_, token', ⟨-, m', -, rfl⟩, -, rfl⟩, huser', -, heq⟩ := h₂
  simp only [List.cons_append, List.nil_append, List.cons.injEq] at heq
  obtain ⟨-, hverify, -⟩ := heq
  cases hverify
  exact huser.symm.trans huser'

theorem admitted_user (config : Config) (rq : HttpRequest) (h : History) :
    ∃ userId, ∀ u h₁ t, h = h₁ ++ t → Admitted config rq u h₁ → u = userId := by
  by_cases hadmitted : ∃ userId, Admitted config rq userId h
  · obtain ⟨userId, hadmitted⟩ := hadmitted
    refine ⟨userId, fun u h₁ t hsplit hu => ?_⟩
    have hext := hu.append t
    rw [← hsplit] at hext
    exact hext.userId_eq hadmitted
  · refine ⟨"", fun u h₁ t hsplit hu => ?_⟩
    have hext := hu.append t
    rw [← hsplit] at hext
    exact absurd ⟨u, hext⟩ hadmitted

/-- Nothing is asked of the core, and nothing of a conversation is answered,
but for a request that the limiter of addresses let pass, whose own token was
verified then, and that the limiter of users let pass after that; and whatever
is asked is asked for the user of that token. -/
theorem acts_for_verified (hruns : (system A config).runs (.idle s) ls = some c)
    (hcall : c.calls id = some ⟨rq, h, status⟩) : ∃ userId, ∀ h₁ e h₂, h = h₁ ++ e :: h₂ →
      (∀ call, e.1 = .port call → Admitted config rq userId h₁ ∧ call.ActsFor userId) ∧
        ∀ response, e.1 = .send response → response.body.Private → Admitted config rq userId h₁ := by
  obtain ⟨userId, hsame⟩ := admitted_user config rq h
  refine ⟨userId, fun h₁ e h₂ hsplit => ?_⟩
  obtain ⟨call, answer⟩ := e
  have hallowed := (runs_ruled hruns hcall).lawful _ _ _ hsplit
  constructor
  · rintro call rfl
    obtain ⟨u, hu, hacts⟩ := hallowed.2
    exact hsame u h₁ _ hsplit hu ▸ ⟨hu, hacts⟩
  · rintro response rfl hprivate
    obtain ⟨u, hu⟩ := hallowed.2.2.2 hprivate
    exact hsame u h₁ _ hsplit hu ▸ hu

/-- An app for one origin, with a parser of bodies that finds none. It is asked for
paths without parameters, from an IPv4 address, which is its own key. -/
def plainConfig : Config where
  corsOrigins := ["https://app.example"]
  readinessCheck := true
  json := fun _ => .ok none
  reader := ⟨fun _ => .nan, fun _ => ⟨none⟩⟩
  matchPath := fun path url => .ok (if path = url then some fun _ => "" else none)
  ipKey := fun ip => ip

/-- Ann asks for her conversations. -/
def annLists : HttpRequest where
  method := .get
  url := "/conversations"
  limit := none
  before := none
  origin := some "https://app.example"
  authorization := some "Bearer ann-token"
  ip := "10.0.0.1"
  body := []

/-- Limiters with room left, and a verifier that knows Ann's token. -/
def welcoming : Surroundings Input where
  port := .allowAll 1 "c"
  increment := fun _ _ => .ok 1
  verify := fun token => if token = "ann-token" then .ok ⟨"ann", none⟩ else .error "unknown token"
  readinessCheck := .ok true
  metrics := .ok ""
  flush := .ok ()

/-- The app over the in-memory stores. -/
abbrev inMemory : System httpCalls Failure Unit (Process World) (Surroundings Input) HttpRequest :=
  system InMemory.adapter plainConfig

/-- Her request with all its turns. -/
def listing : List (Label (Surroundings Input) HttpRequest) := Label.turns 0 annLists welcoming 7

theorem acts_for_verified_listed : ∃ c h userId, inMemory.runs (.idle (.init (World.init 0))) listing = some c ∧
    c.calls 0 = some ⟨annLists, h, .settled (.ok ())⟩ ∧ ∀ h₁ e h₂, h = h₁ ++ e :: h₂ →
      ∀ call, e.1 = .port call → Admitted plainConfig annLists userId h₁ ∧ call.ActsFor userId := by
  have hruns : inMemory.runs (.idle (.init (World.init 0))) listing = some _ := rfl
  obtain ⟨userId, hacts⟩ := @acts_for_verified _ _ _ _ _ _ _ 0 annLists _ _ hruns rfl
  exact ⟨_, _, userId, hruns, rfl, fun h₁ e h₂ hsplit => (hacts h₁ e h₂ hsplit).1⟩

-- ---------------------------------------------------------------------------
-- What a request costs
-- ---------------------------------------------------------------------------

/-- A request is counted once at most by either limiter and costs one
verification at most, and that only once the limiter of addresses has let it
pass. Preflights and probes are neither counted nor verified, and ask nothing
of the core. -/
theorem charged_once (hruns : (system A config).runs (.idle s) ls = some c)
    (hcall : c.calls id = some ⟨rq, h, status⟩) :
    (∀ limiter, h.countP (fun e => e.1.counts limiter) ≤ 1) ∧ h.countP (fun e => e.1.verifies) ≤ 1 ∧
      (∀ h₁ token x h₂, h = h₁ ++ ⟨.verify token, x⟩ :: h₂ → Counted config rq h₁) ∧
        (Open config rq → ∀ e ∈ h, (∀ limiter, e.1.counts limiter = false) ∧ e.1.verifies = false ∧
          ∀ call, e.1 ≠ .port call) := by
  have hlawful := (runs_ruled hruns hcall).lawful
  refine ⟨fun limiter => ?_, ?_, fun h₁ token x h₂ hsplit => (hlawful _ _ _ hsplit).1, ?_⟩
  · cases limiter with
    | ip =>
      refine hlawful.countP_le_one (k := 0) fun h call hallowed hcounts => ?_
      cases call with
      | increment limiter key =>
        cases limiter with
        | ip => exact congrArg List.length hallowed.1
        | user => cases hcounts
      | _ => cases hcounts
    | user =>
      refine hlawful.countP_le_one (k := 2) fun h call hallowed hcounts => ?_
      cases call with
      | increment limiter key =>
        cases limiter with
        | ip => cases hcounts
        | user =>
          obtain ⟨identity, ⟨_, token, ⟨-, n, -, rfl⟩, -, rfl⟩, -⟩ := hallowed
          rfl
      | _ => cases hcounts
  · refine hlawful.countP_le_one (k := 1) fun h call hallowed hverifies => ?_
    cases call with
    | verify token =>
      obtain ⟨⟨-, n, -, rfl⟩, -⟩ := hallowed
      rfl
    | _ => cases hverifies
  · intro hopen e he
    obtain ⟨h₁, h₂, hsplit⟩ := List.append_of_mem he
    have hallowed := hlawful _ _ _ hsplit
    obtain ⟨call, answer⟩ := e
    cases call with
    | port call =>
      obtain ⟨-, u, hu, -⟩ := hallowed
      exact absurd hopen hu.not_open
    | increment limiter key =>
      cases limiter with
      | ip => exact absurd hopen hallowed.2.1
      | user =>
        obtain ⟨identity, hauth, -⟩ := hallowed
        exact absurd hopen hauth.not_open
    | verify token => exact absurd hopen hallowed.1.1
    | _ => exact ⟨fun _ => rfl, rfl, fun _ => nofun⟩

theorem charged_once_listed : ∃ c h, inMemory.runs (.idle (.init (World.init 0))) listing = some c ∧
    c.calls 0 = some ⟨annLists, h, .settled (.ok ())⟩ ∧
      ∀ limiter, h.countP (fun e => e.1.counts limiter) ≤ 1 := by
  have hruns : inMemory.runs (.idle (.init (World.init 0))) listing = some _ := rfl
  have hcharged := @charged_once _ _ _ _ _ _ _ 0 annLists _ _ hruns rfl
  exact ⟨_, _, hruns, rfl, hcharged.1⟩

-- ---------------------------------------------------------------------------
-- Responses
-- ---------------------------------------------------------------------------

/-- After the response, nothing is asked for but to count it. -/
theorem allows_after_response {call : HttpCall} (hallows : allows config rq h call) (hsent : responses h ≠ []) :
    ∃ labels, call = .observe labels := by
  cases call with
  | observe labels => exact ⟨labels, rfl⟩
  | port call => exact absurd hallows.1 hsent
  | published => exact absurd hallows.1 hsent
  | send response => exact absurd hallows.1 hsent
  | readinessCheck => exact absurd (congrArg responses hallows.1) hsent
  | metrics => exact absurd (congrArg responses hallows.1) hsent
  | verify token =>
    obtain ⟨⟨-, n, -, rfl⟩, -⟩ := hallows
    exact absurd rfl hsent
  | increment limiter key =>
    cases limiter with
    | ip => exact absurd (congrArg responses hallows.1) hsent
    | user =>
      obtain ⟨identity, ⟨_, token, ⟨-, n, -, rfl⟩, -, rfl⟩, -⟩ := hallows
      exact absurd rfl hsent

theorem responses_length_le (hlawful : (rules config rq).Lawful h) : (responses h).length ≤ 1 := by
  induction h using List.reverseRecOn with
  | nil => exact Nat.zero_le 1
  | append_singleton h e ih =>
    obtain ⟨hbefore, hallows⟩ := hlawful.before
    obtain ⟨call, answer⟩ := e
    rw [responses_append]
    cases hresponse : call.response with
    | none =>
      have hnone : responses [⟨call, answer⟩] = [] :=
        List.filterMap_cons_none (f := fun e : httpCalls.Event Failure => e.1.response) hresponse
      rw [hnone, List.append_nil]
      exact ih hbefore
    | some response =>
      cases call with
      | send response =>
        have hfirst : responses h = [] := hallows.1
        rw [hfirst]
        exact Nat.le_refl 1
      | _ => cases hresponse

/-- A request is answered at most once, with nothing behind the answer but its
being counted; it never rejects; it has been answered when it has settled; and
it has settled after a fixed number of its turns, whatever the others do. -/
theorem responds_once (hruns : (system A config).runs (.idle s) ls = some c)
    (hcall : c.calls id = some ⟨rq, h, status⟩) :
    (responses h).length ≤ 1 ∧
      (∀ h₁ response x h₂, h = h₁ ++ ⟨.send response, x⟩ :: h₂ → ∀ e ∈ h₂, ∃ labels, e.1 = .observe labels) ∧
      (∀ x, status = .settled x → x = .ok () ∧ (responses h).length = 1) ∧
      (waits < System.turns id ls → ∃ x, status = .settled x) := by
  have hcovers := runs_ruled hruns hcall
  refine ⟨responses_length_le hcovers.lawful, ?_, hcovers.settled, fun hturns => ?_⟩
  · intro h₁ response x h₂ hsplit e he
    obtain ⟨t₁, t₂, rfl⟩ := List.append_of_mem he
    have hallowed := hcovers.lawful (h₁ ++ ⟨.send response, x⟩ :: t₁) e t₂ (by rw [hsplit]; simp)
    refine allows_after_response hallowed ?_
    rw [responses_append]
    exact List.append_ne_nil_of_right_ne_nil _ (List.cons_ne_nil _ _)
  · exact System.settled_of_turns (serve_within config) hruns hcall hturns

theorem responds_once_listed : ∃ c h, inMemory.runs (.idle (.init (World.init 0))) listing = some c ∧
    c.calls 0 = some ⟨annLists, h, .settled (.ok ())⟩ ∧ (responses h).length = 1 := by
  have hruns : inMemory.runs (.idle (.init (World.init 0))) listing = some _ := rfl
  have hresponds := @responds_once _ _ _ _ _ _ _ 0 annLists _ _ hruns rfl
  exact ⟨_, _, hruns, rfl, (hresponds.2.2.1 _ rfl).2⟩

-- ---------------------------------------------------------------------------
-- Metrics
-- ---------------------------------------------------------------------------

/-- The routes that requests are counted under. -/
def routes : List String :=
  [unmatched, "/health", "/ready", "/metrics", "/conversations", "/conversations/:id",
    "/conversations/:id/messages", "/conversations/:id/read", "/conversations/:id/messages/:messageId"]

/-- The labels of a call, as the counter takes them. -/
def counted (e : httpCalls.Event Failure) : List MetricLabels := e.1.labels.toList

end HttpApp

end Jiffy
