-- SUMMARY: The whole HTTP app: its middlewares in order, from the request as it arrives to the response and the metrics.
import Jiffy.Core.PortCalls
import Jiffy.Http.App
import Jiffy.Lib.Middleware
import Jiffy.WebSocket.Upgrade

/-!
# Middlewares

`createHttpApp` of `src/http/app.ts` with the middlewares it mounts, in the order
in which it mounts them: `src/http/auth-middleware.ts`, `src/http/rate-limit.ts`,
`src/http/health-router.ts`, `src/http/metrics-router.ts` and
`src/http/request-metrics-middleware.ts`.
-/

namespace Jiffy

open Js Async

-- ---------------------------------------------------------------------------
-- Requests
-- ---------------------------------------------------------------------------

inductive Method where
  | get
  | head
  | post
  | delete
  | options
  | other (name : String)
deriving DecidableEq, Repr

/-- `req.method`. -/
def Method.name : Method → String
  | .get => "GET"
  | .head => "HEAD"
  | .post => "POST"
  | .delete => "DELETE"
  | .options => "OPTIONS"
  | .other name => name

/-- The method whose routes a request is held against: `HEAD` finds those of `GET`. -/
def Method.routed : Method → Method
  | .head => .get
  | method => method

/-- A request as it arrives: its target, what the app reads of query and headers,
the address that `trust proxy` makes of it, and the body. -/
structure HttpRequest where
  method : Method
  url : String
  limit : Option QueryValue
  before : Option QueryValue
  origin : Option String
  authorization : Option String
  ip : String
  body : List UInt8

-- ---------------------------------------------------------------------------
-- Routes
-- ---------------------------------------------------------------------------

/-- What Express makes of the path of a route and the target of a request: no
match, the parameters by their names, or the failure to decode one of them. -/
abbrev PathMatcher : Type := String → String → Except String (Option (String → String))

/-- A route of a router, with what it takes from a request. -/
structure HttpRoute (κ : Type) where
  method : Method
  path : String
  target : HttpRequest → (String → String) → κ

/-- The search of a router for the route of a request: the path that it leaves in
`req.route`, and the route. What cannot be decoded ends it, whatever the method
of the route. A `HEAD` request is given every route of its path on the way, which
does nothing for it if the method is another one. -/
def findRoute {κ : Type} (matchPath : PathMatcher) (request : HttpRequest) :
    List (HttpRoute κ) → Option String × Except Failure (Option κ)
  | [] => (none, .ok none)
  | route :: routes =>
    match matchPath route.path request.url with
    | .error e => (none, .error (.port e))
    | .ok none => findRoute matchPath request routes
    | .ok (some params) =>
      if route.method = request.method.routed then
        (some route.path, .ok (some (route.target request params)))
      else if request.method = .head then
        let (noted, found) := findRoute matchPath request routes
        (noted.or (some route.path), found)
      else
        findRoute matchPath request routes

inductive HealthRoute where
  | health
  | ready

def healthRoutes : List (HttpRoute HealthRoute) := [
  ⟨.get, "/health", fun _ _ => .health⟩,
  ⟨.get, "/ready", fun _ _ => .ready⟩]

def metricsRoutes : List (HttpRoute Unit) := [⟨.get, "/metrics", fun _ _ => ()⟩]

def conversationsRoutes : List (HttpRoute Endpoint) := [
  ⟨.post, "/conversations", fun _ _ => .createConversation⟩,
  ⟨.get, "/conversations", fun _ _ => .listConversations⟩,
  ⟨.get, "/conversations/:id", fun _ params => .getConversation (params "id")⟩,
  ⟨.post, "/conversations/:id/messages", fun _ params => .sendMessage (params "id")⟩,
  ⟨.get, "/conversations/:id/messages", fun request params =>
    .listMessages (params "id") request.limit request.before⟩,
  ⟨.post, "/conversations/:id/read", fun _ params => .markRead (params "id")⟩,
  ⟨.delete, "/conversations/:id/messages/:messageId", fun _ params =>
    .deleteMessage (params "id") (params "messageId")⟩,
  ⟨.delete, "/conversations/:id", fun _ params => .deleteConversation (params "id")⟩]

-- ---------------------------------------------------------------------------
-- What the app asks for
-- ---------------------------------------------------------------------------

inductive HttpBody where
  /-- what the conversations router and the error handler answer with -/
  | json (body : ResponseBody)
  /-- `{ status }` -/
  | status (status : String)
  | text (text : String)
  /-- what Express answers with where no route matched -/
  | notFound
  | empty

/-- A response as the handlers give it, with its `Access-Control-Allow-Origin`. Of
the answer to a `HEAD` request Node leaves the body out. -/
structure HttpResponse where
  status : Nat
  body : HttpBody
  allowOrigin : Option String

/-- The labels of a series of `httpRequestsTotal` and `httpRequestDuration`. -/
structure MetricLabels where
  method : String
  route : String
  status : String
deriving DecidableEq, Repr

structure RateLimitOptions where
  windowMs : Nat
  limit : Nat

inductive RateLimiter where
  | ip
  | user
deriving DecidableEq, Repr

/-- The options that the two limiters are created with. -/
def RateLimiter.options : RateLimiter → RateLimitOptions
  | .ip => ⟨60000, 300⟩
  | .user => ⟨60000, 60⟩

inductive HttpCall where
  /-- what the core asks for -/
  | port (call : PortCall)
  /-- `store.increment`: the hits of the key in its window, this one included -/
  | increment (limiter : RateLimiter) (key : String)
  /-- `tokenVerifier.verify` -/
  | verify (token : String)
  /-- `config.readinessCheck` -/
  | readinessCheck
  /-- `register.metrics` -/
  | metrics
  /-- `messagesPublishedTotal.inc` -/
  | published
  /-- Send the response; answered when it has gone out. -/
  | send (response : HttpResponse)
  /-- `httpRequestsTotal.inc` and the end of the timer -/
  | observe (labels : MetricLabels)

@[reducible] def HttpCall.Resp : HttpCall → Type
  | .port call => call.Resp
  | .increment _ _ => Nat
  | .verify _ => VerifiedIdentity
  | .readinessCheck => Bool
  | .metrics => String
  | .published => Unit
  | .send _ => Unit
  | .observe _ => Unit

abbrev httpCalls : Interface := ⟨HttpCall, HttpCall.Resp⟩

namespace HttpApp

abbrev request (call : HttpCall) : Proc httpCalls Failure call.Resp := @Proc.request httpCalls Failure call

/-- A call whose answer the same turn uses or drops. -/
abbrev perform (call : HttpCall) : Proc httpCalls Failure call.Resp := @Proc.perform httpCalls Failure call

/-- How the core makes each of its calls. -/
def expression : (call : PortCall) → Proc httpCalls Failure call.Resp
  | .newDate => perform (.port .newDate)
  | .publish message => perform (.port (.publish message))
  | .notify message recipientIds => perform (.port (.notify message recipientIds))
  | call => request (.port call)

-- ---------------------------------------------------------------------------
-- Middlewares
-- ---------------------------------------------------------------------------

/-- What the app is configured with, and what it leaves to its packages. -/
structure Config where
  corsOrigins : List String
  /-- whether there is a `readinessCheck` -/
  readinessCheck : Bool
  json : BodyParser
  reader : TextReader
  matchPath : PathMatcher
  /-- the key that `express-rate-limit` makes of an address -/
  ipKey : String → String

/-- What a router finds for a request. -/
def Config.find {κ : Type} (config : Config) (routes : List (HttpRoute κ)) (request : HttpRequest) :
    Option String × Except Failure (Option κ) :=
  findRoute config.matchPath request routes

/-- A request under way, with what the middlewares have left on it. -/
structure Exchange where
  request : HttpRequest
  allowOrigin : Option String := none
  /-- whether a listener waits for the response to go out -/
  timed : Bool := false
  body : Option Json := none
  /-- `res.locals.userId` -/
  userId : Option String := none
  /-- `req.route.path` -/
  route : Option String := none

abbrev AppMiddleware : Type := Middleware httpCalls Failure Exchange

/-- Answer, and once that has gone out, what listens for it. -/
def respond (x : Exchange) (status : Nat) (body : HttpBody) : Proc httpCalls Failure Unit := do
  let sent ← (request (.send ⟨status, body, x.allowOrigin⟩)).settle
  match sent with
  | .error _ => return ()
  | .ok _ =>
    if x.timed then
      perform (.observe ⟨x.request.method.name, x.route.getD "unmatched", toString status⟩)
    else
      return ()

/-- Answer, and pass nothing on. -/
def answer (x : Exchange) (status : Nat) (body : HttpBody) : Proc httpCalls Failure (Option Exchange) := do
  respond x status body
  return none

/-- `cors({ origin: config.corsOrigins })`. -/
def cors (corsOrigins : List String) : AppMiddleware := fun x =>
  let stamped := { x with allowOrigin := x.request.origin.filter fun origin => corsOrigins.contains origin }
  if x.request.method = .options then answer stamped 204 .empty else return some stamped

def requestMetrics : AppMiddleware := fun x => return some { x with timed := true }

/-- `express.json()`. -/
def jsonBody (json : BodyParser) : AppMiddleware := fun x => .pause do
  let body ← Proc.ofExcept ((json x.request.body).mapError Failure.port)
  return some { x with body }

/-- `req.route` as a router leaves it. -/
def Exchange.note (x : Exchange) (path : Option String) : Exchange := { x with route := path.or x.route }

section Router

variable {κ : Type} (find : HttpRequest → Option String × Except Failure (Option κ))

/-- A router notes the route that matches. -/
def noteRoute : AppMiddleware := fun x => return some (x.note (find x.request).1)

/-- Then it runs the handler of the route. -/
def runRoute (handler : κ → Exchange → Proc httpCalls Failure Unit) : AppMiddleware := fun x => do
  let found ← Proc.ofExcept (find x.request).2
  match found with
  | none => return some x
  | some route => do
    handler route x
    return none

/-- A router, in two steps: what its handler throws finds the route noted. -/
def router (handler : κ → Exchange → Proc httpCalls Failure Unit) : List AppMiddleware :=
  [noteRoute find, runRoute find handler]

end Router

/-- A check that fails counts as not ready. -/
def isReady (readinessCheck : Bool) : Proc httpCalls Failure Bool :=
  if readinessCheck then (request .readinessCheck).catching fun _ => return false else return true

def healthRouter (config : Config) : List AppMiddleware :=
  router (config.find healthRoutes) fun route x =>
    match route with
    | .health => respond x 200 (.status "ok")
    | .ready => do
      let ready ← isReady config.readinessCheck
      respond x (if ready then 200 else 503) (.status (if ready then "ready" else "not ready"))

def metricsRouter (config : Config) : List AppMiddleware :=
  router (config.find metricsRoutes) fun _ x => do
    let text ← request .metrics
    respond x 200 (.text text)

/-- The key that a limiter counts a request under. -/
def limiterKey (ipKey : String → String) (x : Exchange) : RateLimiter → String
  | .ip => ipKey x.request.ip
  | .user => x.userId.getD "anonymous"

def rateLimiter (ipKey : String → String) (limiter : RateLimiter) : AppMiddleware := fun x => do
  let totalHits ← request (.increment limiter (limiterKey ipKey x limiter))
  if limiter.options.limit < totalHits then
    answer x 429 (.text "Too many requests, please try again later.")
  else
    return some x

/-- The token of an `Authorization` header; an empty one is none. -/
def bearerToken (authorization : Option String) : Option String :=
  authorization.bind fun header =>
    if "Bearer ".toList.isPrefixOf header.toList then
      let token := String.ofList (header.toList.drop "Bearer ".length)
      if token = "" then none else some token
    else
      none

def authenticate : AppMiddleware := fun x =>
  match bearerToken x.request.authorization with
  | none => answer x 401 (.json (.error "Missing bearer token"))
  | some token => do
    let verified ← (request (.verify token)).settle
    match verified with
    | .ok identity => return some { x with userId := some identity.userId }
    | .error _ => answer x 401 (.json (.error "Invalid or expired token"))

/-- `messagesPublishedTotal.inc()`, which only a send that went through comes to. -/
def countPublished : Endpoint → ResponseBody → Proc httpCalls Failure Unit
  | .sendMessage _, .message _ => perform .published
  | _, _ => return ()

def conversationsRouter (config : Config) : List AppMiddleware :=
  router (config.find conversationsRoutes) fun endpoint x => do
    -- `authenticate` has set the user
    let routed := ConversationsRouter.dispatch config.reader ⟨x.userId.getD "", endpoint.route x.body⟩
    let response ← routed.implement expression
    countPublished endpoint response.body
    respond x response.status (.json response.body)

/-- What Express does where no middleware has answered. -/
def notFound : AppMiddleware := fun x => answer x 404 .notFound

def onError (error : Failure) (x : Exchange) : Proc httpCalls Failure Unit :=
  respond x (errorHandler error).status (.json (errorHandler error).body)

/-- The middlewares behind the parser of bodies that run without a token. -/
def probes (config : Config) : List AppMiddleware := healthRouter config ++ metricsRouter config

/-- The middlewares from the first limiter on. -/
def guarded (config : Config) : List AppMiddleware :=
  [rateLimiter config.ipKey .ip, authenticate, rateLimiter config.ipKey .user] ++ conversationsRouter config ++
    [notFound]

def middlewares (config : Config) : List AppMiddleware :=
  [cors config.corsOrigins, requestMetrics, jsonBody config.json] ++ probes config ++ guarded config

/-- What the app does with a request. -/
def serve (config : Config) (request : HttpRequest) : Proc httpCalls Failure Unit :=
  chain onError (middlewares config) { request }

end HttpApp

end Jiffy
