-- SUMMARY: What the app may ask for on behalf of a request, and when: the order of its middlewares as rules, which every request keeps.
import Jiffy.Http.Dispatch

/-!
# Admission

The rules of a request. The limiter of addresses comes first, then the verifier,
then the limiter of users, each once; only behind all three is anything asked of
the core, and for the verified user alone. There is one response, and at most
one observation, which tells the route and not the path.
-/

namespace Jiffy

open Js Async

/-- The response that a call sends. -/
def HttpCall.response : HttpCall → Option HttpResponse
  | .send response => some response
  | _ => none

/-- The labels that a call counts. -/
def HttpCall.labels : HttpCall → Option MetricLabels
  | .observe labels => some labels
  | _ => none

/-- Whether a call counts the request under a limiter. -/
def HttpCall.counts (limiter : RateLimiter) : HttpCall → Bool
  | .increment l _ => l = limiter
  | _ => false

def HttpCall.verifies : HttpCall → Bool
  | .verify _ => true
  | _ => false

/-- A body with something of a conversation in it. -/
def HttpBody.Private : HttpBody → Prop
  | .json (.error _) | .json .empty | .status _ | .text _ | .notFound | .empty => False
  | .json _ => True

namespace HttpApp

/-- What has been asked for a request so far, and answered. -/
abbrev History : Type := List (httpCalls.Event Failure)

def responses (h : History) : List HttpResponse := h.filterMap fun e => e.1.response

def observations (h : History) : List MetricLabels := h.filterMap fun e => e.1.labels

@[simp] theorem responses_nil : responses [] = [] := rfl
@[simp] theorem observations_nil : observations [] = [] := rfl

theorem responses_append (h t : History) : responses (h ++ t) = responses h ++ responses t :=
  List.filterMap_append

theorem observations_append (h t : History) : observations (h ++ t) = observations h ++ observations t :=
  List.filterMap_append

-- ---------------------------------------------------------------------------
-- Admission
-- ---------------------------------------------------------------------------

/-- A router has a route for the request. -/
def Routed {κ : Type} (config : Config) (routes : List (HttpRoute κ)) (rq : HttpRequest) : Prop :=
  ∃ route, (config.find routes rq).2 = .ok (some route)

/-- The request may be let past the limiters without a token. -/
def Open (config : Config) (rq : HttpRequest) : Prop :=
  rq.method = .options ∨ Routed config healthRoutes rq ∨ Routed config metricsRoutes rq

/-- The limiter of addresses has counted the request and let it pass. -/
def Counted (config : Config) (rq : HttpRequest) (h : History) : Prop :=
  ¬ Open config rq ∧ ∃ n, n ≤ RateLimiter.ip.options.limit ∧ h = [⟨.increment .ip (config.ipKey rq.ip), .ok n⟩]

/-- Its token has been verified then. -/
def Authenticated (config : Config) (rq : HttpRequest) (identity : VerifiedIdentity) (h : History) : Prop :=
  ∃ h₀ token, Counted config rq h₀ ∧ bearerToken rq.authorization = some token ∧
    h = h₀ ++ [⟨.verify token, .ok identity⟩]

/-- The history begins with a request by `userId` being counted, verified, and
counted for the user. -/
def Admitted (config : Config) (rq : HttpRequest) (userId : String) (h : History) : Prop :=
  ∃ h₀ identity n rest, Authenticated config rq identity h₀ ∧ identity.userId = userId ∧
    n ≤ RateLimiter.user.options.limit ∧ h = h₀ ++ ⟨.increment .user userId, .ok n⟩ :: rest

section Admitted

variable {config : Config} {rq : HttpRequest} {userId : String} {h : History}

theorem Authenticated.not_open {identity : VerifiedIdentity} (ha : Authenticated config rq identity h) :
    ¬ Open config rq := by
  obtain ⟨_, _, hcounted, -⟩ := ha
  exact hcounted.1

theorem Admitted.not_open (ha : Admitted config rq userId h) : ¬ Open config rq := by
  obtain ⟨_, _, _, _, hauth, -⟩ := ha
  exact hauth.not_open

theorem Admitted.append (ha : Admitted config rq userId h) (t : History) : Admitted config rq userId (h ++ t) := by
  obtain ⟨h₀, identity, n, rest, hauth, huser, hn, rfl⟩ := ha
  exact ⟨h₀, identity, n, rest ++ t, hauth, huser, hn, by simp⟩

end Admitted

-- ---------------------------------------------------------------------------
-- Rules
-- ---------------------------------------------------------------------------

/-- The label for a request that no route has matched so far. -/
def unmatched : String := "unmatched"

/-- The label that a request is counted under: the path of a route that it matched,
which is one of the conversations only for a request that was admitted. -/
inductive Labelled (config : Config) (rq : HttpRequest) (h : History) : String → Prop where
  | unmatched : Labelled config rq h unmatched
  | health {path : String} (hpath : (config.find healthRoutes rq).1 = some path) : Labelled config rq h path
  | metrics {path : String} (hpath : (config.find metricsRoutes rq).1 = some path) : Labelled config rq h path
  | conversations {path userId : String} (hpath : (config.find conversationsRoutes rq).1 = some path)
    (hadmitted : Admitted config rq userId h) : Labelled config rq h path

def allows (config : Config) (rq : HttpRequest) (h : History) : HttpCall → Prop
  | .increment .ip key => h = [] ∧ ¬ Open config rq ∧ key = config.ipKey rq.ip
  | .verify token => Counted config rq h ∧ bearerToken rq.authorization = some token
  | .increment .user key => ∃ identity, Authenticated config rq identity h ∧ key = identity.userId
  | .port call => responses h = [] ∧ ∃ userId, Admitted config rq userId h ∧ call.ActsFor userId
  | .published => responses h = [] ∧ ∃ userId, Admitted config rq userId h
  | .readinessCheck => h = [] ∧ Routed config healthRoutes rq
  | .metrics => h = [] ∧ Routed config metricsRoutes rq
  | .send response =>
    responses h = [] ∧ response.status ∈ statuses ∧
      response.allowOrigin = rq.origin.filter (fun origin => config.corsOrigins.contains origin) ∧
      (response.body.Private → ∃ userId, Admitted config rq userId h)
  | .observe labels =>
    observations h = [] ∧ rq.method ≠ .options ∧ ∃ response, responses h = [response] ∧
      labels.method = rq.method.name ∧ labels.status = toString response.status ∧
      Labelled config rq h labels.route

/-- The rules of a request. Counting does not fail; what the ports answer may
change until it is used. -/
def rules (config : Config) (rq : HttpRequest) : Rules httpCalls Failure where
  allows := allows config rq
  waiting _ := True
  answers call x :=
    match call with
    | .published | .observe _ => x = .ok ()
    | _ => True
  becomes call x y :=
    match call with
    | .port _ => True
    | _ => x = y

/-- A request is done when it has been answered, once. -/
def Done (x : Except Failure Unit) (h : History) : Prop := x = .ok () ∧ (responses h).length = 1

-- ---------------------------------------------------------------------------
-- Responding
-- ---------------------------------------------------------------------------

variable {config : Config} {rq : HttpRequest} {x : Exchange} {h : History}

theorem Labelled.append {route : String} (hl : Labelled config rq h route) (t : History) :
    Labelled config rq (h ++ t) route := by
  cases hl with
  | unmatched => exact .unmatched
  | health hpath => exact .health hpath
  | metrics hpath => exact .metrics hpath
  | conversations hpath hadmitted => exact .conversations hpath (hadmitted.append t)

/-- A request that still has to be answered. -/
structure Unanswered (config : Config) (rq : HttpRequest) (x : Exchange) (h : History) : Prop where
  request : x.request = rq
  origin : x.allowOrigin = rq.origin.filter fun origin => config.corsOrigins.contains origin
  timed : x.timed = true → rq.method ≠ .options
  unsent : responses h = []
  unobserved : observations h = []
  labelled : Labelled config rq h (x.route.getD unmatched)

/-- It stays so by what neither sends nor counts. -/
theorem Unanswered.snoc (hx : Unanswered config rq x h) {e : httpCalls.Event Failure}
    (hresponse : e.1.response = none) (hlabels : e.1.labels = none) :
    Unanswered config rq x (h ++ [e]) := by
  refine { hx with unsent := ?_, unobserved := ?_, labelled := hx.labelled.append _ }
  · rw [responses_append, hx.unsent]
    exact List.filterMap_cons_none (f := fun e : httpCalls.Event Failure => e.1.response) hresponse
  · rw [observations_append, hx.unobserved]
    exact List.filterMap_cons_none (f := fun e : httpCalls.Event Failure => e.1.labels) hlabels

/-- Answering is allowed once, and so is what listens for the answer. -/
theorem respond_keeps (hx : Unanswered config rq x h) {status : Nat} {body : HttpBody}
    (hstatus : status ∈ statuses) (hbody : body.Private → ∃ userId, Admitted config rq userId h)
    {Q : Ending httpCalls Failure Unit} (hQ : ∀ h', (responses h').length = 1 → Q (.ok ()) h') :
    (respond x status body).Keeps (rules config rq) Q h := by
  have hsent : ∀ y, responses (h ++ [⟨.send ⟨status, body, x.allowOrigin⟩, y⟩]) =
      [⟨status, body, x.allowOrigin⟩] := by
    intro y
    rw [responses_append, hx.unsent]
    rfl
  refine .bind (.settle (.request ⟨hx.unsent, hstatus, hx.origin, hbody⟩ (fun _ _ => trivial) ?_))
  intro y z _ hz
  obtain rfl : y = z := hz.eq id
  cases y with
  | error e => exact hQ _ (congrArg List.length (hsent _))
  | ok _ =>
    simp only
    split
    · next htimed =>
      refine .perform ⟨?_, hx.timed htimed, _, hsent _, ?_, rfl, hx.labelled.append _⟩ fun y hy => ?_
      · rw [observations_append, hx.unobserved]
        rfl
      · rw [hx.request]
      · have hy : y = .ok () := hy
        subst hy
        apply hQ
        rw [responses_append, hsent]
        rfl
    · exact hQ _ (congrArg List.length (hsent _))

theorem errorHandler_status (e : Failure) : (errorHandler e).status ∈ statuses := by
  cases e with
  | core error => cases error <;> simp [errorHandler, Response.failed, statuses]
  | port message => simp [errorHandler, Response.failed, statuses]

theorem errorHandler_body (e : Failure) : ¬ (HttpBody.json (errorHandler e).body).Private := by
  cases e with
  | core error => cases error <;> exact id
  | port message => exact id

theorem onError_keeps (hx : Unanswered config rq x h) (e : Failure) :
    (onError e x).Keeps (rules config rq) Done h :=
  respond_keeps hx (errorHandler_status e) (fun hbody => absurd hbody (errorHandler_body e))
    fun _ hsent => ⟨rfl, hsent⟩

/-- A handler has answered, or leaves that to the error handler. -/
def Handled (config : Config) (rq : HttpRequest) (x : Exchange) : Ending httpCalls Failure Unit :=
  fun r h => match r with
    | .ok _ => Done (.ok ()) h
    | .error e => (onError e x).Keeps (rules config rq) Done h

section Answers

variable {status : Nat} {body : HttpBody}

/-- A handler that answers. -/
theorem respond_handled (hx : Unanswered config rq x h) (hstatus : status ∈ statuses)
    (hbody : body.Private → ∃ userId, Admitted config rq userId h) (y : Exchange) :
    (respond x status body).Keeps (rules config rq) (Handled config rq y) h :=
  respond_keeps hx hstatus hbody fun _ hsent => ⟨rfl, hsent⟩

/-- A middleware that answers. -/
theorem answer_passed (hx : Unanswered config rq x h) (hstatus : status ∈ statuses) (hbody : ¬ body.Private)
    (y : Exchange) (ms : List AppMiddleware) :
    (answer x status body).Keeps (rules config rq) (Passed (rules config rq) Done onError ms y) h := by
  refine .bind (respond_keeps hx hstatus (fun hb => absurd hb hbody) fun h' hsent => ?_)
  exact ⟨rfl, hsent⟩

end Answers

-- ---------------------------------------------------------------------------
-- Middlewares
-- ---------------------------------------------------------------------------

section Middlewares

variable {ms : List AppMiddleware}

/-- What a router has noted on a request. -/
theorem Unanswered.note (hx : Unanswered config rq x h) {found : Option String}
    (hfound : ∀ path, found = some path → Labelled config rq h path) :
    Unanswered config rq (x.note found) h := by
  refine { hx with labelled := ?_ }
  cases found with
  | none => exact hx.labelled
  | some path => exact hfound path rfl

/-- A router passes on what it has no route for. -/
theorem router_keeps {κ : Type} {routes : List (HttpRoute κ)}
    {handler : κ → Exchange → Proc httpCalls Failure Unit} (hx : Unanswered config rq x h)
    (hlabelled : ∀ path, (config.find routes rq).1 = some path → Labelled config rq h path)
    (hpass : ∀ y, y.userId = x.userId → Unanswered config rq y h → (config.find routes rq).2 = .ok none →
      (chain onError ms y).Keeps (rules config rq) Done h)
    (hhandle : ∀ k y, y.userId = x.userId → Unanswered config rq y h →
      (config.find routes rq).2 = .ok (some k) → (handler k y).Keeps (rules config rq) (Handled config rq y) h) :
    (chain onError (router (config.find routes) handler ++ ms) x).Keeps (rules config rq) Done h := by
  have hrequest := hx.request
  have hnoted := hx.note hlabelled
  rw [← hrequest] at hnoted
  refine .chain_cons (.chain_cons ?_)
  unfold runRoute
  refine .bind (.ofExcept ?_)
  rw [show (x.note (config.find routes x.request).1).request = x.request from rfl, hrequest] at *
  cases hfind : (config.find routes rq).2 with
  | error e => exact onError_keeps hnoted e
  | ok found =>
    cases found with
    | none => exact hpass _ rfl hnoted hfind
    | some k =>
      refine .bind (.mono ?_ (hhandle k _ rfl hnoted hfind))
      intro r h hr
      cases r with
      | error e => exact hr
      | ok _ => exact hr

theorem healthRouter_keeps (hx : Unanswered config rq x [])
    (hpass : ∀ y, Unanswered config rq y [] → ¬ Routed config healthRoutes rq →
      (chain onError ms y).Keeps (rules config rq) Done []) :
    (chain onError (healthRouter config ++ ms) x).Keeps (rules config rq) Done [] := by
  refine router_keeps hx (fun path hpath => .health hpath) (fun y _ hy hfind => hpass y hy ?_)
    fun route y _ hroute hfind => ?_
  · rintro ⟨route, hroute⟩
    rw [hfind] at hroute
    cases hroute
  cases route with
  | health => exact respond_handled hroute (by decide) False.elim _
  | ready =>
    have hstatus : ∀ ready : Bool, (if ready then 200 else 503) ∈ statuses := by decide
    refine .bind ?_
    unfold isReady
    split
    · refine .catching (.request ⟨rfl, _, hfind⟩ (fun _ _ => trivial) fun y z _ hz => ?_)
      cases z with
      | error e => exact respond_handled (hroute.snoc rfl rfl) (hstatus false) False.elim _
      | ok ready => exact respond_handled (hroute.snoc rfl rfl) (hstatus ready) False.elim _
    · exact respond_handled hroute (hstatus true) False.elim _

theorem metricsRouter_keeps (hx : Unanswered config rq x [])
    (hpass : ∀ y, Unanswered config rq y [] → ¬ Routed config metricsRoutes rq →
      (chain onError ms y).Keeps (rules config rq) Done []) :
    (chain onError (metricsRouter config ++ ms) x).Keeps (rules config rq) Done [] := by
  refine router_keeps hx (fun path hpath => .metrics hpath) (fun y _ hy hfind => hpass y hy ?_)
    fun _ y _ hroute hfind => ?_
  · rintro ⟨route, hroute⟩
    rw [hfind] at hroute
    cases hroute
  refine .bind (.request ⟨rfl, _, hfind⟩ (fun _ _ => trivial) fun y z _ hz => ?_)
  cases z with
  | error e => exact onError_keeps (hroute.snoc rfl rfl) e
  | ok text => exact respond_handled (hroute.snoc rfl rfl) (by decide) False.elim _

/-- What is left of a request behind a limiter that let it pass. -/
theorem rateLimiter_keeps {limiter : RateLimiter} (hx : Unanswered config rq x h)
    (hallows : allows config rq h (.increment limiter (limiterKey config.ipKey x limiter)))
    (hpass : ∀ n, n ≤ limiter.options.limit → (chain onError ms x).Keeps (rules config rq) Done
      (h ++ [⟨.increment limiter (limiterKey config.ipKey x limiter), .ok n⟩])) :
    (chain onError (rateLimiter config.ipKey limiter :: ms) x).Keeps (rules config rq) Done h := by
  refine Proc.Keeps.chain_cons (.bind (.request hallows (fun _ _ => trivial) fun y z _ hz => ?_))
  obtain rfl : y = z := hz.eq id
  cases y with
  | error e => exact onError_keeps (hx.snoc rfl rfl) e
  | ok n =>
    simp only
    split
    · exact answer_passed (hx.snoc rfl rfl) (by decide) id x ms
    · next hn => exact hpass n (Nat.le_of_not_lt hn)

theorem authenticate_keeps (hx : Unanswered config rq x h) (hcounted : Counted config rq h)
    (hpass : ∀ h' identity, Unanswered config rq x h' → Authenticated config rq identity h' →
      (chain onError ms { x with userId := some identity.userId }).Keeps (rules config rq) Done h') :
    (chain onError (authenticate :: ms) x).Keeps (rules config rq) Done h := by
  refine Proc.Keeps.chain_cons ?_
  unfold authenticate
  cases htoken : bearerToken x.request.authorization with
  | none => exact answer_passed hx (by decide) id x ms
  | some token =>
    rw [hx.request] at htoken
    refine .bind (.settle (.request ⟨hcounted, htoken⟩ (fun _ _ => trivial) fun y z _ hz => ?_))
    obtain rfl : y = z := hz.eq id
    cases y with
    | error e => exact answer_passed (hx.snoc rfl rfl) (by decide) id x ms
    | ok identity => exact hpass _ identity (hx.snoc rfl rfl) ⟨h, token, hcounted, htoken, rfl⟩

/-- A request that has been admitted and not answered yet. -/
def Inside (config : Config) (rq : HttpRequest) (x : Exchange) (userId : String) (h : History) : Prop :=
  Unanswered config rq x h ∧ Admitted config rq userId h

section Inside

variable {userId : String}

/-- What the core asks for in the user's name goes through. -/
theorem ports_keep {α : Type} {method : Service α} (hmethod : method.Only (PortCall.ActsFor userId))
    (hx : Inside config rq x userId h) : (method.implement expression).Keeps (rules config rq)
      (fun _ h => Inside config rq x userId h) h := by
  have hask : (method.implement expression).Only fun call : HttpCall =>
      ∃ c : PortCall, call = .port c ∧ c.ActsFor userId := by
    refine Proc.Only.implement (fun call hcall => ?_) hmethod
    cases call <;> exact ⟨⟨_, rfl, hcall⟩, .ofExcept⟩
  refine .of_only ?_ (fun _ => trivial) hask hx
  rintro h call ⟨hx, hadmitted⟩ ⟨c, rfl, hc⟩
  exact ⟨⟨hx.unsent, userId, hadmitted, hc⟩, fun y _ => ⟨hx.snoc rfl rfl, hadmitted.append _⟩⟩

theorem dispatched_keeps {p : Service Response} (hp : Dispatched userId p)
    (hx : Inside config rq x userId h) : (p.implement expression).Keeps (rules config rq)
      (fun r h => Inside config rq x userId h ∧ ∀ response, r = .ok response → response.status ∈ statuses)
      h := by
  induction hp generalizing h with
  | refused hstatus => exact ⟨hx, fun response hr => by cases hr; exact hstatus⟩
  | @called α op method reply render hop hby hrender =>
    rw [Proc.implement_bind]
    refine .bind (.mono ?_ (ports_keep (hby.only hop) hx))
    intro r h hx
    cases r with
    | error e => exact ⟨hx, nofun⟩
    | ok a => exact ⟨hx, fun response hr => by cases hr; exact hrender a⟩
  | timed _ ih =>
    rw [Proc.implement_bind]
    refine .bind (.mono ?_ (ports_keep (.perform trivial) hx))
    intro r h hx
    cases r with
    | error e => exact ⟨hx, nofun⟩
    | ok now => exact ih now hx

theorem conversationsRouter_keeps (hx : Inside config rq x userId h) (huser : x.userId = some userId)
    (hpass : ∀ y, Unanswered config rq y h → (chain onError ms y).Keeps (rules config rq) Done h) :
    (chain onError (conversationsRouter config ++ ms) x).Keeps (rules config rq) Done h := by
  refine router_keeps hx.1 (fun path hpath => .conversations hpath hx.2) (fun y _ hy _ => hpass y hy)
    fun endpoint y hsame hy _ => ?_
  have hroute : Inside config rq y userId h := ⟨hy, hx.2⟩
  have hdispatched : Dispatched userId
      (ConversationsRouter.dispatch config.reader ⟨y.userId.getD "", endpoint.route y.body⟩) := by
    have hany := ConversationsRouter.dispatch_dispatched config.reader ⟨y.userId.getD "", endpoint.route y.body⟩
    rwa [show y.userId.getD "" = userId by rw [hsame, huser]; rfl] at hany ⊢
  refine .bind (.mono ?_ (dispatched_keeps hdispatched hroute))
  rintro r h ⟨hroute, hstatus⟩
  cases r with
  | error e => exact onError_keeps hroute.1 e
  | ok response =>
    have hresponds {h : History} (hroute : Inside config rq y userId h) :=
      respond_handled hroute.1 (hstatus response rfl) (fun _ : (HttpBody.json response.body).Private =>
        ⟨userId, hroute.2⟩) y
    refine .bind ?_
    unfold countPublished
    split
    · refine .perform ⟨hroute.1.unsent, userId, hroute.2⟩ fun z hz => ?_
      have hz : z = .ok () := hz
      subst hz
      exact hresponds ⟨hroute.1.snoc rfl rfl, hroute.2.append _⟩
    · exact hresponds hroute

end Inside

theorem notFound_keeps (hx : Unanswered config rq x h) :
    (chain onError [notFound] x).Keeps (rules config rq) Done h :=
  Proc.Keeps.chain_cons (answer_passed hx (by decide) id x [])

end Middlewares

/-- From the first limiter on, for a request that is not open. -/
theorem guarded_keeps (hx : Unanswered config rq x []) (hopen : ¬ Open config rq) :
    (chain onError (guarded config) x).Keeps (rules config rq) Done [] := by
  have hkey : limiterKey config.ipKey x .ip = config.ipKey rq.ip :=
    congrArg (fun request => config.ipKey (HttpRequest.ip request)) hx.request
  refine rateLimiter_keeps hx ⟨rfl, hopen, hkey⟩ fun n hn => ?_
  have hcounted : Counted config rq ([] ++ [⟨.increment .ip (limiterKey config.ipKey x .ip), .ok n⟩]) :=
    ⟨hopen, n, hn, by rw [hkey]; rfl⟩
  refine authenticate_keeps (hx.snoc rfl rfl) hcounted fun h identity hx hauth => ?_
  have huser : Unanswered config rq { x with userId := some identity.userId } h := { hx with }
  refine rateLimiter_keeps huser ⟨identity, hauth, rfl⟩ fun m hm => ?_
  have hinside : Inside config rq { x with userId := some identity.userId } identity.userId
      (h ++ [⟨.increment .user identity.userId, .ok m⟩]) :=
    ⟨huser.snoc rfl rfl, h, identity, m, [], hauth, rfl, hm, rfl⟩
  exact conversationsRouter_keeps hinside rfl fun _ => notFound_keeps

/-- A request that is no preflight, as it gets to the parser of bodies and leaves it. -/
def arrived (config : Config) (rq : HttpRequest) (body : Option Json) : Exchange where
  request := rq
  allowOrigin := rq.origin.filter fun origin => config.corsOrigins.contains origin
  timed := true
  body := body

theorem arrived_unanswered (config : Config) (hmethod : rq.method ≠ .options) (body : Option Json) :
    Unanswered config rq (arrived config rq body) [] :=
  ⟨rfl, rfl, fun _ => hmethod, rfl, rfl, .unmatched⟩

/-- Every request keeps its rules, and ends answered once. -/
theorem serve_keeps (config : Config) (rq : HttpRequest) :
    (serve config rq).Keeps (rules config rq) Done [] := by
  refine .chain_cons ?_
  unfold cors
  simp only
  split
  · exact answer_passed ⟨rfl, rfl, fun ht => absurd ht Bool.false_ne_true, rfl, rfl, .unmatched⟩ (by decide) id _ _
  · next hmethod =>
    refine .chain_cons (.chain_cons ⟨trivial, .bind (.ofExcept ?_)⟩)
    simp only
    cases config.json rq.body with
    | error e => exact onError_keeps (arrived_unanswered config hmethod none) (.port e)
    | ok body =>
      have hfresh := arrived_unanswered config hmethod body
      refine healthRouter_keeps hfresh fun y hy hhealth => ?_
      refine metricsRouter_keeps hy fun z hz hmetrics => guarded_keeps hz ?_
      rintro (hoptions | hopen | hopen)
      · exact hmethod hoptions
      · exact hhealth hopen
      · exact hmetrics hopen

end HttpApp

end Jiffy
