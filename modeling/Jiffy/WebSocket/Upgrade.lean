-- SUMMARY: The upgrade handler: what becomes of a connection attempt, and when the handler itself fails.
import Jiffy.Core.Errors
import Jiffy.Domain
import Jiffy.Lib.Proc
import Jiffy.WebSocket.ConnectionRateLimiter
import Jiffy.WebSocket.ConnectionRegistry

/-!
# Upgrade handler

The listener of `server.on('upgrade', ..)` in `src/websocket/websocket-server.ts`.
It is an `async` function whose promise is dropped: when it rejects, nobody
handles the rejection.
-/

namespace Jiffy

open Js Async

/-- What the handler reads of the request. Its method and headers matter to `ws`
alone. -/
structure UpgradeRequest where
  /-- `req.url` -/
  url : Option String
  /-- `req.socket.remoteAddress` -/
  remoteAddress : Option String

/-- A parsed URL: its query parameters, in order. -/
structure Url where
  searchParams : List (String × String)

/-- `url.searchParams.get(name)`. -/
def Url.get (url : Url) (name : String) : Option String :=
  (url.searchParams.find? fun p => p.1 = name).map Prod.snd

/-- `new URL(input, base)`, which throws on an input it cannot parse. -/
abbrev UrlParser : Type := String → String → Except Failure Url

structure VerifiedIdentity where
  userId : String
  expiresAt : Option Date

-- ---------------------------------------------------------------------------
-- The handler
-- ---------------------------------------------------------------------------

/-- What the handler asks for. -/
inductive UpgradeCall where
  /-- `rateLimiter.allow` -/
  | allow (key : String)
  /-- `socket.write` -/
  | write (text : String)
  /-- `socket.destroy` -/
  | destroy
  /-- `tokenVerifier.verify` -/
  | verify (token : String)
  /-- `wss.handleUpgrade`: the socket for its callback, if it comes to the callback -/
  | handleUpgrade
  /-- `registry.add` -/
  | register (userId : String) (socket : Nat)
  /-- `Date.now()` -/
  | now
  /-- `setTimeout` of closing the socket; no delay for `NaN` -/
  | closeAfter (socket : Nat) (delay : Option Int)

@[reducible] def UpgradeCall.Resp : UpgradeCall → Type
  | .allow _ => Bool
  | .write _ => Unit
  | .destroy => Unit
  | .verify _ => VerifiedIdentity
  | .handleUpgrade => Option Nat
  | .register _ _ => Unit
  | .now => Int
  | .closeAfter _ _ => Unit

abbrev upgrades : Interface := ⟨UpgradeCall, UpgradeCall.Resp⟩

namespace Upgrade

/-- A call whose answer the same turn uses or drops. -/
abbrev perform (call : UpgradeCall) : Proc upgrades Failure call.Resp :=
  @Proc.perform upgrades Failure call

def tooManyRequests : String := "HTTP/1.1 429 Too Many Requests\r\n\r\n"

def unauthorized : String := "HTTP/1.1 401 Unauthorized\r\n\r\n"

/-- Write and hang up. -/
def refuse (text : String) : Proc upgrades Failure Unit := do
  perform (.write text)
  perform .destroy

def extractToken (newURL : UrlParser) (req : UpgradeRequest) : Except Failure (Option String) :=
  (newURL (req.url.getD "") "http://localhost").map fun url => url.get "token"

/-- What the callback of `handleUpgrade` does. -/
def opened (identity : VerifiedIdentity) (socket : Nat) : Proc upgrades Failure Unit := do
  perform (.register identity.userId socket)
  match identity.expiresAt with
  | none => return ()
  | some expiresAt => do
    let now ← perform .now
    perform (.closeAfter socket (expiresAt.time.map fun t => max (t - now) 0))

/-- `handleUpgrade` calls its callback with the socket, or not at all. -/
def callback (identity : VerifiedIdentity) : Option Nat → Proc upgrades Failure Unit
  | none => return ()
  | some socket => opened identity socket

def handle (newURL : UrlParser) (req : UpgradeRequest) : Proc upgrades Failure Unit := do
  let ip := req.remoteAddress.getD "unknown"
  let allowed ← perform (.allow ip)
  if !allowed then
    refuse tooManyRequests
  else do
    let token ← Proc.ofExcept (extractToken newURL req)
    match token with
    | none | some "" => refuse unauthorized
    | some token => do
      -- the `try` is around `verify` alone
      let verified ← Proc.settle (@Proc.request upgrades Failure (.verify token))
      match verified with
      | .error _ => refuse unauthorized
      | .ok identity => do
        let upgraded ← perform .handleUpgrade
        callback identity upgraded

end Upgrade

-- ---------------------------------------------------------------------------
-- One attempt
-- ---------------------------------------------------------------------------

/-- What the raw socket of an attempt was made to do. -/
inductive SocketAct where
  | written (text : String)
  | destroyed
  | upgraded
  /-- `ws` answered with an error of its own, if the client still listened, and
  closed the socket -/
  | aborted
deriving DecidableEq, Repr

/-- What an attempt shares with everything else that happens: the limiter, the
live connections and the pending timers. -/
structure Shared where
  limiter : ConnectionRateLimiter
  sockets : Sockets Message
  timers : List (Nat × Option Int)

structure Upgrading where
  shared : Shared
  acts : List SocketAct

/-- What the environment supplies: the clock, the verifier, what else happens
until the verifier has answered, and what `ws` makes of the request then. -/
structure UpgradeInput where
  now : Int
  verify : String → Except String VerifiedIdentity
  meanwhile : Shared → Shared
  verifiedAt : Int
  /-- whether `ws` performs the handshake: the request is a valid one by its
  method and headers, and the client has not gone -/
  handshake : Bool

namespace Upgrade

/-- Writing to a raw socket and destroying it do not throw. -/
def answer (i : UpgradeInput) : (call : UpgradeCall) → Upgrading → Except Failure call.Resp × Upgrading
  | .allow key, ⟨shared, acts⟩ =>
    let (allowed, limiter) := shared.limiter.allow key i.now
    (.ok allowed, ⟨{ shared with limiter }, acts⟩)
  | .write text, ⟨shared, acts⟩ => (.ok (), ⟨shared, acts ++ [.written text]⟩)
  | .destroy, ⟨shared, acts⟩ => (.ok (), ⟨shared, acts ++ [.destroyed]⟩)
  | .verify token, ⟨shared, acts⟩ =>
    ((i.verify token).mapError Failure.port, ⟨i.meanwhile shared, acts⟩)
  | .handleUpgrade, ⟨shared, acts⟩ =>
    if i.handshake then
      let sockets := shared.sockets
      (.ok (some sockets.next), ⟨{ shared with sockets := { sockets with
        opened := sockets.opened ++ [sockets.next], next := sockets.next + 1 } }, acts ++ [.upgraded]⟩)
    else
      (.ok none, ⟨shared, acts ++ [.aborted]⟩)
  | .register userId socket, ⟨shared, acts⟩ =>
    let sockets := shared.sockets
    (.ok (), ⟨{ shared with sockets :=
      { sockets with registry := sockets.registry.add userId socket } }, acts⟩)
  | .now, s => (.ok i.verifiedAt, s)
  | .closeAfter socket delay, ⟨shared, acts⟩ =>
    (.ok (), ⟨{ shared with timers := shared.timers ++ [(socket, delay)] }, acts⟩)

def adapter : Adapter upgrades Failure Upgrading UpgradeInput where
  perform := answer
  refresh _ _ x := x
  admissible _ _ := true
  tick _ s := s

/-- The attempt from start to end. -/
def attempt (newURL : UrlParser) (i : UpgradeInput) (req : UpgradeRequest) (shared : Shared) :
    Except Failure Unit × Upgrading :=
  adapter.run i (handle newURL req) ⟨shared, []⟩

-- ---------------------------------------------------------------------------
-- How attempts end
-- ---------------------------------------------------------------------------

inductive Ending where
  | tooManyRequests
  | unauthorized
  | handshake
  /-- the handshake was not performed -/
  | aborted
deriving DecidableEq, Repr

/-- What an ending does to the raw socket. -/
def Ending.acts : Ending → List SocketAct
  | .tooManyRequests => [.written Upgrade.tooManyRequests, .destroyed]
  | .unauthorized => [.written Upgrade.unauthorized, .destroyed]
  | .handshake => [.upgraded]
  | .aborted => [.aborted]

theorem Ending.acts_injective : Function.Injective Ending.acts := by
  intro e e' h
  cases e <;> cases e' <;> first | rfl | exact absurd h (by decide)

variable {newURL : UrlParser} {i : UpgradeInput} {req : UpgradeRequest} {shared : Shared}

/-- The limiter's answer to an attempt. -/
def allowed (i : UpgradeInput) (req : UpgradeRequest) (shared : Shared) : Bool :=
  (shared.limiter.allow (req.remoteAddress.getD "unknown") i.now).1

/-- The attempt was allowed, its token is not empty and has been verified. -/
def Verified (newURL : UrlParser) (i : UpgradeInput) (req : UpgradeRequest) (shared : Shared) : Prop :=
  allowed i req shared = true ∧ ∃ token identity, extractToken newURL req = .ok (some token) ∧
    token ≠ "" ∧ i.verify token = .ok identity

theorem run_refuse (i : UpgradeInput) (text : String) (s : Upgrading) : adapter.run i (refuse text) s =
    (.ok (), ⟨s.shared, s.acts ++ [.written text, .destroyed]⟩) := by
  obtain ⟨shared, acts⟩ := s
  simp [refuse, perform, adapter, answer]

/-- The callback leaves the raw socket alone. -/
theorem run_opened (i : UpgradeInput) (identity : VerifiedIdentity) (socket : Nat) (s : Upgrading) :
    ∃ shared, adapter.run i (opened identity socket) s = (.ok (), ⟨shared, s.acts⟩) := by
  obtain ⟨shared, acts⟩ := s
  unfold opened
  cases identity.expiresAt with
  | none => exact ⟨_, rfl⟩
  | some expiresAt => exact ⟨_, rfl⟩

/-- An attempt with a token that is not empty. -/
theorem run_verify (i : UpgradeInput) (token : String) (s : Upgrading) :
    adapter.run i (Proc.settle (@Proc.request upgrades Failure (.verify token))) s =
      (.ok ((i.verify token).mapError Failure.port), ⟨i.meanwhile s.shared, s.acts⟩) := by
  rw [Adapter.run_settle, Adapter.run_request]
  rfl

/-- What `ws` makes of an attempt that it is handed. -/
def handedOver (i : UpgradeInput) : Ending := if i.handshake then .handshake else .aborted

/-- From the call of `ws` on. -/
theorem run_handleUpgrade (i : UpgradeInput) (identity : VerifiedIdentity) (shared : Shared) :
    ∃ shared', adapter.run i ((perform .handleUpgrade).bind (callback identity)) ⟨shared, []⟩ =
      (.ok (), ⟨shared', (handedOver i).acts⟩) := by
  have hupgrade : adapter.run i (perform .handleUpgrade) ⟨shared, []⟩ = answer i .handleUpgrade ⟨shared, []⟩ :=
    adapter.run_perform i _ _
  rw [Adapter.run_bind, hupgrade]
  unfold answer handedOver
  cases i.handshake with
  | false => exact ⟨shared, rfl⟩
  | true =>
    obtain ⟨shared', hopened⟩ := run_opened i identity shared.sockets.next ⟨{ shared with sockets :=
      { shared.sockets with
        opened := shared.sockets.opened ++ [shared.sockets.next], next := shared.sockets.next + 1 } }, [.upgraded]⟩
    exact ⟨shared', hopened⟩

theorem run_allow (acts : List SocketAct) :
    adapter.run i (perform (.allow (req.remoteAddress.getD "unknown"))) ⟨shared, acts⟩ =
      (.ok (allowed i req shared), ⟨{ shared with limiter :=
        (shared.limiter.allow (req.remoteAddress.getD "unknown") i.now).2 }, acts⟩) :=
  rfl

theorem attempt_refused (hallowed : allowed i req shared = false) :
    ∃ shared', attempt newURL i req shared = (.ok (), ⟨shared', Ending.tooManyRequests.acts⟩) := by
  have hallow := @run_allow i req shared []
  unfold attempt handle
  simp only [Proc.bind_eq_bind, Adapter.run_bind, hallow, hallowed, Bool.not_false, if_true, run_refuse]
  exact ⟨_, rfl⟩

/-- The handler rejects before it has touched the socket. -/
theorem attempt_unparsed (hallowed : allowed i req shared = true) {error : Failure}
    (h : newURL (req.url.getD "") "http://localhost" = .error error) :
    (attempt newURL i req shared).1 = .error error ∧ (attempt newURL i req shared).2.acts = [] := by
  have htoken : extractToken newURL req = .error error := by
    unfold extractToken
    rw [h]
    rfl
  have hallow := @run_allow i req shared []
  unfold attempt handle
  simp only [Proc.bind_eq_bind, Adapter.run_bind, hallow, hallowed, htoken, Bool.not_true, Bool.false_eq_true,
    if_false, Proc.ofExcept_error, Adapter.run_throw]
  exact ⟨trivial, trivial⟩

/-- Once the target has been parsed, the token decides. -/
theorem attempt_parsed (hallowed : allowed i req shared = true) {token : Option String}
    (htoken : extractToken newURL req = .ok token) :
    (∀ text identity, token = some text → text ≠ "" → i.verify text = .ok identity →
        ∃ shared', attempt newURL i req shared = (.ok (), ⟨shared', (handedOver i).acts⟩)) ∧
      ((∀ text identity, token = some text → text ≠ "" → i.verify text ≠ .ok identity) →
        ∃ shared', attempt newURL i req shared = (.ok (), ⟨shared', Ending.unauthorized.acts⟩)) := by
  have hallow := @run_allow i req shared []
  unfold attempt handle
  simp only [Proc.bind_eq_bind, Adapter.run_bind, hallow, hallowed, htoken, Bool.not_true, Bool.false_eq_true,
    if_false, Proc.ofExcept_ok, Adapter.run_ret]
  split
  · simp only [run_refuse]
    exact ⟨fun _ _ hsome => (by cases hsome), fun _ => ⟨_, rfl⟩⟩
  · simp only [run_refuse]
    refine ⟨fun text _ hsome hne => ?_, fun _ => ⟨_, rfl⟩⟩
    cases hsome
    exact absurd rfl hne
  · next text hne =>
    simp only [Adapter.run_bind]
    rw [run_verify]
    constructor
    · intro _ identity hsome _ hverify
      cases hsome
      rw [hverify]
      exact run_handleUpgrade i identity _
    · intro hnot
      cases hverify : i.verify text with
      | error error =>
        simp only [Except.mapError, run_refuse]
        exact ⟨_, rfl⟩
      | ok identity => exact absurd hverify (hnot text identity rfl hne)

/-- How an attempt ends whose limiter refuses, or whose target parses. -/
structure EndsAs (newURL : UrlParser) (i : UpgradeInput) (req : UpgradeRequest) (shared : Shared) (e : Ending) :
    Prop where
  resolves : (attempt newURL i req shared).1 = .ok ()
  acts : (attempt newURL i req shared).2.acts = e.acts
  verified : Verified newURL i req shared → e = handedOver i
  unverified : ¬ Verified newURL i req shared → e = .tooManyRequests ∨ e = .unauthorized

theorem EndsAs.of_run {e : Ending}
    (hrun : ∃ shared', attempt newURL i req shared = (.ok (), ⟨shared', e.acts⟩))
    (hverified : Verified newURL i req shared → e = handedOver i)
    (hunverified : ¬ Verified newURL i req shared → e = .tooManyRequests ∨ e = .unauthorized) :
    EndsAs newURL i req shared e := by
  obtain ⟨shared', hrun⟩ := hrun
  exact ⟨congrArg Prod.fst hrun, congrArg (fun result => result.2.acts) hrun, hverified, hunverified⟩

/-- An attempt whose limiter refuses, or whose target parses, ends one way. -/
theorem attempt_ends (h : allowed i req shared = true → ∃ token, extractToken newURL req = .ok token) :
    ∃ e, EndsAs newURL i req shared e := by
  cases hallowed : allowed i req shared with
  | false =>
    have hnot : ¬ Verified newURL i req shared := fun hverified => by
      rw [hverified.1] at hallowed
      cases hallowed
    exact ⟨_, .of_run (attempt_refused hallowed) (fun hverified => absurd hverified hnot) fun _ => .inl rfl⟩
  | true =>
    obtain ⟨token, htoken⟩ := h hallowed
    obtain ⟨hhanded, hrefused⟩ := attempt_parsed hallowed htoken
    by_cases hverified : Verified newURL i req shared
    · obtain ⟨-, text, identity, hsome, hne, hverify⟩ := id hverified
      have hrun := hhanded text identity (Except.ok.inj (htoken.symm.trans hsome)) hne hverify
      exact ⟨_, .of_run hrun (fun _ => rfl) fun hnot => absurd hverified hnot⟩
    · have hrun := hrefused fun text identity hsome hne hverify =>
        hverified ⟨hallowed, text, identity, hsome ▸ htoken, hne, hverify⟩
      exact ⟨_, .of_run hrun (fun h => absurd h hverified) fun _ => .inr rfl⟩

/-- What an attempt is to come to: a refusal by the limiter, one for the token, or
the handshake, and this exactly for a verified token; and no failure of the
handler itself that leaves the socket open. -/
structure Resolved (newURL : UrlParser) (i : UpgradeInput) (req : UpgradeRequest) (shared : Shared) :
    Prop where
  ends : ∃! e : Ending, e ≠ .aborted ∧ (attempt newURL i req shared).2.acts = e.acts
  handshake : (attempt newURL i req shared).2.acts = Ending.handshake.acts ↔
    Verified newURL i req shared
  handled : ∀ error, (attempt newURL i req shared).1 = .error error →
    .destroyed ∈ (attempt newURL i req shared).2.acts

/-- The limiter refuses the attempt, or its request target parses. -/
def Parses (newURL : UrlParser) (i : UpgradeInput) (req : UpgradeRequest) (shared : Shared) : Prop :=
  allowed i req shared = true → ∃ url, newURL (req.url.getD "") "http://localhost" = .ok url

theorem Parses.ends (h : Parses newURL i req shared) : ∃ e, EndsAs newURL i req shared e := by
  apply attempt_ends
  intro hallowed
  obtain ⟨url, hurl⟩ := h hallowed
  exact ⟨url.get "token", by rw [extractToken, hurl]; rfl⟩

/-- The raw socket shows which ending it was. -/
theorem EndsAs.unique {e e' : Ending} (he : EndsAs newURL i req shared e)
    (hacts : (attempt newURL i req shared).2.acts = e'.acts) : e' = e :=
  Ending.acts_injective (hacts.symm.trans he.acts)

theorem EndsAs.resolved {e : Ending} (he : EndsAs newURL i req shared e)
    (hshakes : Verified newURL i req shared → i.handshake = true) : Resolved newURL i req shared := by
  have hhanded : Verified newURL i req shared → e = .handshake := fun hverified =>
    (he.verified hverified).trans (if_pos (hshakes hverified))
  have hclaimed : e ≠ .aborted ∧ (e = .handshake → Verified newURL i req shared) := by
    by_cases hverified : Verified newURL i req shared
    · exact ⟨by rw [hhanded hverified]; exact Ending.noConfusion, fun _ => hverified⟩
    · rcases he.unverified hverified with rfl | rfl
      · exact ⟨Ending.noConfusion, Ending.noConfusion⟩
      · exact ⟨Ending.noConfusion, Ending.noConfusion⟩
  refine ⟨⟨e, ⟨hclaimed.1, he.acts⟩, fun e' he' => he.unique he'.2⟩, ?_, ?_⟩
  · constructor
    · exact fun hacts => hclaimed.2 (he.unique hacts).symm
    · exact fun hverified => hhanded hverified ▸ he.acts
  · intro error herror
    rw [he.resolves] at herror
    cases herror

/-- The socket of an attempt whose target does not parse would stay open. -/
theorem Resolved.parses (h : Resolved newURL i req shared) : Parses newURL i req shared := by
  intro hallowed
  cases hurl : newURL (req.url.getD "") "http://localhost" with
  | ok url => exact ⟨url, rfl⟩
  | error error =>
    obtain ⟨hrejected, hacts⟩ := attempt_unparsed hallowed hurl
    have hdestroyed := h.handled error hrejected
    rw [hacts] at hdestroyed
    cases hdestroyed

theorem Resolved.performed (h : Resolved newURL i req shared) (hverified : Verified newURL i req shared) :
    i.handshake = true := by
  obtain ⟨e, he⟩ := h.parses.ends
  have hhanded : .handshake = handedOver i :=
    (he.unique (h.handshake.mpr hverified)).trans (he.verified hverified)
  unfold handedOver at hhanded
  cases hshake : i.handshake with
  | true => rfl
  | false =>
    rw [hshake] at hhanded
    cases hhanded

/-- An attempt is resolved exactly when the limiter refuses it or its request
target parses, and `ws` performs the handshake of a verified one. Where only that
fails, the attempt ends with what `ws` does about it. -/
theorem attempt_resolved_iff (newURL : UrlParser) (i : UpgradeInput) (req : UpgradeRequest)
    (shared : Shared) :
    (Resolved newURL i req shared ↔
      Parses newURL i req shared ∧ (Verified newURL i req shared → i.handshake = true)) ∧
    (Parses newURL i req shared → (attempt newURL i req shared).1 = .ok () ∧
      ∃! e : Ending, (attempt newURL i req shared).2.acts = e.acts) := by
  constructor
  · constructor
    · exact fun h => ⟨h.parses, h.performed⟩
    · rintro ⟨hparses, hshakes⟩
      obtain ⟨e, he⟩ := hparses.ends
      exact he.resolved hshakes
  · intro hparses
    obtain ⟨e, he⟩ := hparses.ends
    exact ⟨he.resolves, e, he.acts, fun e' he' => he.unique he'⟩

/-- A URL parser on request targets of slashes alone: two name an empty host,
which is no URL. -/
def slashes : UrlParser := fun input _ =>
  if input = "//" then .error (.port "Invalid URL") else .ok ⟨[]⟩

/-- The request target `//`, from a source without attempts so far: the handler
rejects, and the socket stays as it is. -/
theorem attempt_escapes : ∃ i shared, shared.limiter = .new 20 60000 ∧
    (attempt slashes i ⟨some "//", some "1.2.3.4"⟩ shared).1 = .error (.port "Invalid URL") ∧
    (attempt slashes i ⟨some "//", some "1.2.3.4"⟩ shared).2.acts = [] ∧
    ¬ Resolved slashes i ⟨some "//", some "1.2.3.4"⟩ shared := by
  refine ⟨⟨0, fun _ => .error "unknown token", id, 0, true⟩, ⟨.new 20 60000, .empty, []⟩, rfl, rfl, rfl, ?_⟩
  intro h
  cases h.handled _ rfl

end Upgrade

end Jiffy
