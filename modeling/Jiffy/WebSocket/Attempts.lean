-- SUMMARY: Connection attempts at once: what each may ask for in which order, and how often the verifier is asked on behalf of one address.
import Jiffy.Lib.Rules
import Jiffy.WebSocket.RateLimiting
import Jiffy.WebSocket.Upgrade

/-!
# Attempts

Attempts arrive at any time and take their turns in any order, and the limiter
is swept in between. The limiter is asked in the turn that an attempt arrives
in, and the verifier in the same turn.
-/

namespace Jiffy

open Js Async FixedWindow

namespace Upgrade

/-- What an attempt has asked for so far, with the answers. -/
abbrev History : Type := List (upgrades.Event Failure)

/-- `req.socket.remoteAddress ?? 'unknown'` -/
def sourceOf (req : UpgradeRequest) : String := req.remoteAddress.getD "unknown"

-- ---------------------------------------------------------------------------
-- Rules
-- ---------------------------------------------------------------------------

section Rules

variable (newURL : UrlParser) (req : UpgradeRequest)

/-- The limiter has refused the attempt. -/
def Refused (h : History) : Prop := h = [⟨.allow (sourceOf req), .ok false⟩]

/-- The limiter has let it pass. -/
def LetIn (h : History) : Prop := h = [⟨.allow (sourceOf req), .ok true⟩]

/-- The token to be verified. -/
def HasToken (token : String) : Prop := extractToken newURL req = .ok (some token) ∧ token ≠ ""

/-- Let in, without a token or with one that failed. -/
def Unverified (h : History) : Prop :=
  (LetIn req h ∧ ¬ ∃ token, HasToken newURL req token) ∨
    ∃ h₀ token e, LetIn req h₀ ∧ HasToken newURL req token ∧ h = h₀ ++ [⟨.verify token, .error e⟩]

/-- Let in, and verified. -/
def Identified (identity : VerifiedIdentity) (h : History) : Prop :=
  ∃ h₀ token, LetIn req h₀ ∧ HasToken newURL req token ∧ h = h₀ ++ [⟨.verify token, .ok identity⟩]

/-- The handshake is done, and the socket is registered for the verified user. -/
def Registered (identity : VerifiedIdentity) (socket : Nat) (h : History) : Prop :=
  ∃ h₀, Identified newURL req identity h₀ ∧
    h = h₀ ++ [⟨.handleUpgrade, .ok (some socket)⟩, ⟨.register identity.userId socket, .ok ()⟩]

def allows (h : History) : UpgradeCall → Prop
  | .allow key => h = [] ∧ key = sourceOf req
  | .verify token => LetIn req h ∧ HasToken newURL req token
  | .write text =>
    (Refused req h ∧ text = tooManyRequests) ∨ (Unverified newURL req h ∧ text = unauthorized)
  | .destroy => ∃ h₀ text, h = h₀ ++ [⟨.write text, .ok ()⟩]
  | .handleUpgrade => ∃ identity, Identified newURL req identity h
  | .register userId socket => ∃ identity h₀, Identified newURL req identity h₀ ∧
    h = h₀ ++ [⟨.handleUpgrade, .ok (some socket)⟩] ∧ userId = identity.userId
  | .now => ∃ identity socket, Registered newURL req identity socket h ∧ identity.expiresAt ≠ none
  | .closeAfter socket delay => ∃ identity expiresAt h₀ now, Registered newURL req identity socket h₀ ∧
    identity.expiresAt = some expiresAt ∧ h = h₀ ++ [⟨.now, .ok now⟩] ∧
    delay = expiresAt.time.map fun t => max (t - now) 0

/-- The rules of an attempt: only the verifier may fail, and only it is awaited. -/
def rules : Rules upgrades Failure where
  allows := allows newURL req
  waiting h := ∃ h₀ token x, LetIn req h₀ ∧ h = h₀ ++ [⟨.verify token, x⟩]
  answers call x := match call with
    | .verify _ => True
    | _ => ∃ a, x = .ok a
  becomes _ a b := b = a

/-- How the handler of an attempt ends. -/
inductive Ended : Except Failure Unit → History → Prop where
  | tooManyRequests {h : History} (hh : Refused req h) :
    Ended (.ok ()) (h ++ [⟨.write tooManyRequests, .ok ()⟩, ⟨.destroy, .ok ()⟩])
  | unauthorized {h : History} (hh : Unverified newURL req h) :
    Ended (.ok ()) (h ++ [⟨.write unauthorized, .ok ()⟩, ⟨.destroy, .ok ()⟩])
  /-- The request target is no URL, and nothing is done about it. -/
  | unparsed {h : History} {e : Failure} (hh : LetIn req h) (he : extractToken newURL req = .error e) :
    Ended (.error e) h
  /-- `ws` did not perform the handshake. -/
  | aborted {h : History} {identity : VerifiedIdentity} (hh : Identified newURL req identity h) :
    Ended (.ok ()) (h ++ [⟨.handleUpgrade, .ok none⟩])
  | opened {h : History} {identity : VerifiedIdentity} {socket : Nat}
    (hh : Registered newURL req identity socket h) (hidentity : identity.expiresAt = none) :
    Ended (.ok ()) h
  | timed {h : History} {identity : VerifiedIdentity} {socket : Nat} {expiresAt : Date} {now : Int}
    (hh : Registered newURL req identity socket h) (hidentity : identity.expiresAt = some expiresAt) :
    Ended (.ok ()) (h ++ [⟨.now, .ok now⟩,
      ⟨.closeAfter socket (expiresAt.time.map fun t => max (t - now) 0), .ok ()⟩])

end Rules

section Keeps

variable {newURL : UrlParser} {req : UpgradeRequest} {h : History}

/-- Anything but the verifier answers with a value. -/
theorem perform_keeps {call : UpgradeCall} {Q : Async.Ending upgrades Failure call.Resp}
    (hcall : ∀ x, (rules newURL req).answers call x → ∃ a, x = .ok a) (hallows : allows newURL req h call)
    (hQ : ∀ a, Q (.ok a) (h ++ [⟨call, .ok a⟩])) : (perform call).Keeps (rules newURL req) Q h := by
  refine Proc.Keeps.perform hallows fun x hx => ?_
  obtain ⟨a, rfl⟩ := hcall x hx
  exact hQ a

theorem refuse_keeps {text : String} (hallows : allows newURL req h (.write text)) :
    (refuse text).Keeps (rules newURL req) (fun x h' =>
      x = .ok () ∧ h' = h ++ [⟨.write text, .ok ()⟩, ⟨.destroy, .ok ()⟩]) h := by
  refine Proc.Keeps.bind (perform_keeps (fun _ hx => hx) hallows fun a => ?_)
  refine perform_keeps (fun _ hx => hx) ⟨h, text, rfl⟩ fun b => ⟨rfl, ?_⟩
  rw [List.append_assoc]
  rfl

theorem callback_keeps {identity : VerifiedIdentity} (hh : Identified newURL req identity h)
    (upgraded : Option Nat) : (callback identity upgraded).Keeps (rules newURL req) (Ended newURL req)
      (h ++ [⟨.handleUpgrade, .ok upgraded⟩]) := by
  cases upgraded with
  | none => exact .aborted hh
  | some socket =>
    have hregistered : Registered newURL req identity socket
        (h ++ [⟨.handleUpgrade, .ok (some socket)⟩] ++ [⟨.register identity.userId socket, .ok ()⟩]) :=
      ⟨h, hh, List.append_assoc _ _ _⟩
    refine Proc.Keeps.bind (perform_keeps (fun _ hx => hx) ⟨identity, h, hh, rfl, rfl⟩ fun _ => ?_)
    cases hexpires : identity.expiresAt with
    | none => exact .opened hregistered hexpires
    | some expiresAt =>
      have hsome : identity.expiresAt ≠ none := by
        rw [hexpires]
        exact Option.some_ne_none expiresAt
      refine Proc.Keeps.bind (perform_keeps (fun _ hx => hx) ⟨identity, socket, hregistered, hsome⟩
          fun now => ?_)
      refine perform_keeps (fun _ hx => hx) ⟨identity, expiresAt, _, now, hregistered, hexpires, rfl, rfl⟩
        fun _ => ?_
      rw [List.append_assoc]
      exact .timed hregistered hexpires

/-- An attempt keeps the rules, whatever the limiter and the verifier answer. -/
theorem handle_keeps (newURL : UrlParser) (req : UpgradeRequest) :
    (handle newURL req).Keeps (rules newURL req) (Ended newURL req) [] := by
  refine Proc.Keeps.bind (perform_keeps (fun _ hx => hx) ⟨rfl, rfl⟩ fun letIn => ?_)
  cases letIn with
  | false =>
    refine (refuse_keeps (.inl ⟨rfl, rfl⟩)).mono ?_
    rintro _ _ ⟨rfl, rfl⟩
    exact .tooManyRequests rfl
  | true =>
    have hunauthorized (h : History) (hh : Unverified newURL req h) :
        (refuse unauthorized).Keeps (rules newURL req) (Ended newURL req) h := by
      refine (refuse_keeps (.inr ⟨hh, rfl⟩)).mono ?_
      rintro _ _ ⟨rfl, rfl⟩
      exact .unauthorized hh
    refine Proc.Keeps.bind (Proc.Keeps.ofExcept ?_)
    cases htoken : extractToken newURL req with
    | error e => exact .unparsed rfl htoken
    | ok token =>
      simp only
      split
      · refine hunauthorized _ (.inl ⟨rfl, ?_⟩)
        rintro ⟨token, hsome, -⟩
        cases htoken.symm.trans hsome
      · refine hunauthorized _ (.inl ⟨rfl, ?_⟩)
        rintro ⟨token, hsome, hne⟩
        cases htoken.symm.trans hsome
        exact hne rfl
      · next token hne =>
        have hhas : HasToken newURL req token := ⟨htoken, hne⟩
        refine Proc.Keeps.bind (Proc.Keeps.settle (Proc.Keeps.request ⟨rfl, hhas⟩ ?_ ?_))
        · exact fun x _ => ⟨_, token, x, rfl, rfl⟩
        · intro x y _ hxy
          cases hxy with
          | error e => exact hunauthorized _ (.inr ⟨_, token, e, rfl, hhas, rfl⟩)
          | ok hidentity =>
            cases hidentity
            refine Proc.Keeps.bind (perform_keeps (fun _ hx => hx) ⟨_, _, token, rfl, hhas, rfl⟩ fun upgraded => ?_)
            exact callback_keeps ⟨_, token, rfl, hhas, rfl⟩ upgraded

end Keeps

-- ---------------------------------------------------------------------------
-- The server
-- ---------------------------------------------------------------------------

/-- What the attempts share, with what the verifier has been asked: the address
that each question was asked for, and when. -/
structure Gateway where
  limiter : ConnectionRateLimiter
  clock : Int
  /-- The address of the attempt that arrived last. -/
  source : String
  verifications : List (String × ℚ)
  sockets : Nat

def Gateway.new (limit windowMs : ℚ) (clock : Int) : Gateway :=
  ⟨.new limit windowMs, clock, "unknown", [], 0⟩

/-- What the environment supplies to a turn: the sweeps since the last one, the
clock, the verifier, and whether `ws` performs a handshake. -/
structure GatewayInput where
  sweeps : List Int
  now : Int
  verify : String → Except String VerifiedIdentity
  handshake : Bool

def respond (i : GatewayInput) : (call : UpgradeCall) → Gateway → Except Failure call.Resp × Gateway
  | .allow key, g =>
    let (allowed, limiter) := g.limiter.allow key g.clock
    (.ok allowed, { g with limiter })
  | .verify token, g =>
    ((i.verify token).mapError Failure.port,
      { g with verifications := g.verifications ++ [(g.source, (g.clock : ℚ))] })
  | .handleUpgrade, g =>
    if i.handshake then (.ok (some g.sockets), { g with sockets := g.sockets + 1 }) else (.ok none, g)
  | .now, g => (.ok g.clock, g)
  | .write _, g | .destroy, g | .register _ _, g | .closeAfter _ _, g => (.ok (), g)

/-- Any number of attempts at one server. -/
def gateway (newURL : UrlParser) : System upgrades Failure Unit Gateway GatewayInput UpgradeRequest where
  perform := respond
  refresh _ _ x := x
  admissible i g := (g.clock :: i.sweeps ++ [i.now]).Pairwise (· ≤ ·)
  tick i g := { g with
    limiter := i.sweeps.foldl (fun limiter (now : Int) => limiter.sweep now) g.limiter, clock := i.now }
  program := handle newURL
  arrive req g := some { g with source := sourceOf req }

section Budget

variable {newURL : UrlParser} {limit windowMs : ℚ} {g g' : Gateway} {i : GatewayInput}

theorem gateway_fits (req : UpgradeRequest) : (rules newURL req).Fits (gateway newURL).toAdapter where
  answers i call g := by
    cases call with
    | verify token => trivial
    | handleUpgrade =>
      show ∃ a, (respond i .handleUpgrade g).1 = .ok a
      unfold respond
      split <;> exact ⟨_, rfl⟩
    | _ => exact ⟨_, rfl⟩
  becomes _ _ _ := rfl

/-- When `address` was admitted. -/
def admittedTimes (address : String) (es : List ConnectionRateLimiter.Event) : List ℚ :=
  ((ConnectionRateLimiter.answersOf address es).filter fun answer => answer.2).map Prod.fst

/-- When the verifier was asked on behalf of `address`. -/
def verifiedTimes (address : String) (g : Gateway) : List ℚ :=
  (g.verifications.filter fun v => v.1 = address).map Prod.snd

/-- The limiter stands as attempts and sweeps have left it, and every question
to the verifier goes back to an attempt of its own that was admitted. -/
def Backed (limit windowMs : ℚ) (g : Gateway) : Prop :=
  ∃ es, ConnectionRateLimiter.machine.Run (.new limit windowMs) es g.limiter ∧
    ConnectionRateLimiter.InOrder es ∧ (∀ e ∈ es, e.input.now ≤ (g.clock : ℚ)) ∧
    ∀ address, (verifiedTimes address g).Sublist (admittedTimes address es)

theorem backed_new (clock : Int) : Backed limit windowMs (.new limit windowMs clock) := by
  refine ⟨[], .nil, .nil, fun e he => absurd he List.not_mem_nil, fun address => ?_⟩
  exact List.Sublist.refl []

theorem Backed.later (h : Backed limit windowMs g) {now : Int} (hnow : g.clock ≤ now) :
    Backed limit windowMs { g with clock := now } := by
  obtain ⟨es, hrun, horder, hclock, hverified⟩ := h
  exact ⟨es, hrun, horder, fun e he => (hclock e he).trans (Int.cast_le.mpr hnow), hverified⟩

theorem inOrder_snoc {es : List ConnectionRateLimiter.Event} {e : ConnectionRateLimiter.Event}
    (horder : ConnectionRateLimiter.InOrder es) (hlast : ∀ e' ∈ es, e'.input.now ≤ e.input.now) :
    ConnectionRateLimiter.InOrder (es ++ [e]) := by
  refine ConnectionRateLimiter.inOrder_append.mpr ⟨horder, List.pairwise_singleton _ _, fun e' he' => ?_⟩
  rw [List.forall_mem_singleton]
  exact hlast e' he'

theorem Backed.sweep (h : Backed limit windowMs g) :
    Backed limit windowMs { g with limiter := g.limiter.sweep g.clock } := by
  obtain ⟨es, hrun, horder, hclock, hverified⟩ := h
  have hstep : ConnectionRateLimiter.machine.step (.sweep g.clock) g.limiter =
      some (none, g.limiter.sweep g.clock) := rfl
  refine ⟨_, hrun.snoc hstep, inOrder_snoc horder hclock, ?_, fun address => ?_⟩
  · rw [List.forall_mem_append, List.forall_mem_singleton]
    exact ⟨hclock, le_rfl⟩
  · rw [admittedTimes, ConnectionRateLimiter.answersOf_skip rfl]
    exact hverified address

/-- Sweeps between two turns. -/
theorem Backed.tick (h : Backed limit windowMs g) {sweeps : List Int} {now : Int}
    (htimes : (g.clock :: sweeps ++ [now]).Pairwise (· ≤ ·)) :
    Backed limit windowMs { g with
      limiter := sweeps.foldl (fun limiter (now : Int) => limiter.sweep now) g.limiter, clock := now } := by
  induction sweeps generalizing g with
  | nil => exact h.later (List.rel_of_pairwise_cons htimes (List.mem_singleton.mpr rfl))
  | cons first sweeps ih =>
    have hfirst : g.clock ≤ first := List.rel_of_pairwise_cons htimes List.mem_cons_self
    exact @ih _ (h.later hfirst).sweep (List.pairwise_cons.mp htimes).2

theorem admittedTimes_allow (address : String) (es : List ConnectionRateLimiter.Event)
    (limiter limiter' : ConnectionRateLimiter) (key : String) (now : ℚ) (answer : Bool) :
    admittedTimes address (es ++ [⟨limiter, .allow key now, some answer, limiter'⟩]) =
      admittedTimes address es ++ if key = address ∧ answer then [now] else [] := by
  unfold admittedTimes
  by_cases hkey : key = address
  · have htime : ConnectionRateLimiter.timeOf address ⟨limiter, .allow key now, some answer, limiter'⟩ =
        some now := if_pos hkey
    rw [ConnectionRateLimiter.answersOf_attempt htime rfl, List.filter_append, List.map_append]
    cases answer with
    | false => simp [hkey]
    | true => simp [hkey]
  · have htime : ConnectionRateLimiter.timeOf address ⟨limiter, .allow key now, some answer, limiter'⟩ =
        none := if_neg hkey
    rw [ConnectionRateLimiter.answersOf_skip htime, if_neg fun h => hkey h.1, List.append_nil]

/-- The state after the limiter was asked. -/
def asked (req : UpgradeRequest) (g : Gateway) : Gateway :=
  { g with limiter := (g.limiter.allow (sourceOf req) g.clock).2 }

/-- The turn in which an attempt arrives asks the verifier once at most, and only
if the limiter said yes. -/
theorem advance_handle (newURL : UrlParser) (req : UpgradeRequest) (i : GatewayInput) (g : Gateway) :
    ((gateway newURL).advance i (handle newURL req) [] g).state = asked req g ∨
      ((g.limiter.allow (sourceOf req) g.clock).1 = true ∧
        ((gateway newURL).advance i (handle newURL req) [] g).state =
          { asked req g with verifications := g.verifications ++ [(g.source, (g.clock : ℚ))] }) := by
  have hfirst : ∀ f : Bool → Proc upgrades Failure Unit,
      (gateway newURL).advance i ((perform (.allow (sourceOf req))).bind f) [] g =
        (gateway newURL).advance i (f (g.limiter.allow (sourceOf req) g.clock).1)
          [⟨.allow (sourceOf req), .ok (g.limiter.allow (sourceOf req) g.clock).1⟩] (asked req g) := fun _ => rfl
  unfold handle
  simp only [Proc.bind_eq_bind]
  rw [show req.remoteAddress.getD "unknown" = sourceOf req from rfl, hfirst]
  cases (g.limiter.allow (sourceOf req) g.clock).1 with
  | false => exact .inl rfl
  | true =>
    cases htoken : extractToken newURL req with
    | error e => exact .inl rfl
    | ok token =>
      simp only [Bool.not_true, Bool.false_eq_true, if_false, Proc.ofExcept_ok, Proc.bind]
      split
      · exact .inl rfl
      · exact .inl rfl
      · exact .inr ⟨trivial, rfl⟩

theorem Backed.arrives (h : Backed limit windowMs g) {req : UpgradeRequest} (hsource : g.source = sourceOf req) :
    Backed limit windowMs ((gateway newURL).advance i (handle newURL req) [] g).state := by
  obtain ⟨es, hrun, horder, hclock, hverified⟩ := h
  have hstep : ConnectionRateLimiter.machine.step (.allow (sourceOf req) g.clock) g.limiter =
      some (some (g.limiter.allow (sourceOf req) g.clock).1, (g.limiter.allow (sourceOf req) g.clock).2) := rfl
  have hlast : ∀ e ∈ es ++ [⟨g.limiter, .allow (sourceOf req) g.clock,
      some (g.limiter.allow (sourceOf req) g.clock).1, (g.limiter.allow (sourceOf req) g.clock).2⟩],
      e.input.now ≤ (g.clock : ℚ) := by
    rw [List.forall_mem_append, List.forall_mem_singleton]
    exact ⟨hclock, le_rfl⟩
  rcases advance_handle newURL req i g with hstate | ⟨hadmitted, hstate⟩
  · rw [hstate]
    refine ⟨_, hrun.snoc hstep, inOrder_snoc horder hclock, hlast, fun address => ?_⟩
    rw [admittedTimes_allow]
    exact (hverified address).trans (List.sublist_append_left _ _)
  · rw [hstate]
    refine ⟨_, hrun.snoc hstep, inOrder_snoc horder hclock, hlast, fun address => ?_⟩
    have htimes : verifiedTimes address { asked req g with
        verifications := g.verifications ++ [(g.source, (g.clock : ℚ))] } =
        verifiedTimes address g ++ if sourceOf req = address then [(g.clock : ℚ)] else [] := by
      unfold verifiedTimes
      rw [List.filter_append, List.map_append, hsource]
      by_cases hkey : sourceOf req = address
      · simp [hkey]
      · simp [hkey]
    rw [admittedTimes_allow, htimes, hadmitted]
    simp only [and_true]
    exact (hverified address).append (List.Sublist.refl _)

/-- What an attempt asks for later concerns neither the limiter nor the verifier. -/
def SameBudget (g g' : Gateway) : Prop :=
  g'.limiter = g.limiter ∧ g'.clock = g.clock ∧ g'.verifications = g.verifications

theorem Backed.same (h : Backed limit windowMs g) (hsame : SameBudget g g') : Backed limit windowMs g' := by
  obtain ⟨hlimiter, hclock, hverifications⟩ := hsame
  unfold Backed verifiedTimes
  rw [hlimiter, hclock, hverifications]
  exact h

theorem respond_sameBudget {req : UpgradeRequest} {h : History} {call : UpgradeCall} (hlong : 2 ≤ h.length)
    (hallows : allows newURL req h call) (g : Gateway) : SameBudget g (respond i call g).2 := by
  cases call with
  | allow key =>
    rw [hallows.1] at hlong
    exact absurd hlong (by decide)
  | verify token =>
    have hone : h.length = 1 := congrArg List.length hallows.1
    omega
  | handleUpgrade =>
    unfold respond
    split <;> exact ⟨rfl, rfl, rfl⟩
  | _ => exact ⟨rfl, rfl, rfl⟩

variable {c c' : Config upgrades Failure Unit Gateway UpgradeRequest} {l : Label GatewayInput UpgradeRequest}

/-- All attempts keep the rules, and every question is backed. -/
def Orderly (newURL : UrlParser) (limit windowMs : ℚ)
    (c : Config upgrades Failure Unit Gateway UpgradeRequest) : Prop :=
  System.AllCovered (rules newURL) (Ended newURL) c ∧ Backed limit windowMs c.world

theorem step_orderly (hc : Orderly newURL limit windowMs c) (hstep : (gateway newURL).step c l = some c') :
    Orderly newURL limit windowMs c' := by
  obtain ⟨hcovered, hbacked⟩ := hc
  refine ⟨System.step_covered gateway_fits (handle_keeps newURL) hcovered hstep, ?_⟩
  obtain ⟨τ⟩ := (gateway newURL).step_turn hstep
  have hticked : Backed limit windowMs ((gateway newURL).tick τ.input c.world) :=
    hbacked.tick (of_decide_eq_true τ.admissible)
  rw [τ.world]
  rcases τ.origin with ⟨-, -, hnil, hprogram, harrive⟩ | ⟨-, hstate, k, hcall, hprogram⟩
  · have hstate : τ.state = { (gateway newURL).tick τ.input c.world with source := sourceOf τ.op } :=
      (Option.some.inj harrive).symm
    have harrived : Backed limit windowMs τ.state := hticked.same (hstate ▸ ⟨rfl, rfl, rfl⟩)
    rw [hnil, hprogram]
    exact harrived.arrives (by rw [hstate])
  · have hcovers := hcovered l.id τ.op τ.history _ hcall
    obtain ⟨h₀, token, x, hletIn, hwaits⟩ := hcovers.waiting k rfl
    have hone : h₀.length = 1 := congrArg List.length hletIn
    have hlong : 2 ≤ τ.history.length := by rw [hwaits, List.length_append, hone]; exact le_rfl
    rw [hprogram]
    refine hticked.same ?_
    rw [← hstate]
    exact System.advance_respects (gateway_fits τ.op) (K := fun h => 2 ≤ h.length)
      (fun hh => by rw [List.length_append]; exact hh.trans (Nat.le_add_right _ _))
      (fun _ => ⟨rfl, rfl, rfl⟩)
      (fun h₁ h₂ => ⟨h₂.1.trans h₁.1, h₂.2.1.trans h₁.2.1, h₂.2.2.trans h₁.2.2⟩)
      (fun s hh hallows => respond_sameBudget hh hallows s) (hcovers.resumes k rfl _) hlong τ.state

theorem runs_orderly {clock : Int} {ls : List (Label GatewayInput UpgradeRequest)}
    (hruns : (gateway newURL).runs (.idle (.new limit windowMs clock)) ls = some c) :
    Orderly newURL limit windowMs c :=
  (gateway newURL).along_inv (fun hc (_ : True) hstep => step_orderly hc hstep)
    ((gateway newURL).along_of_forall (fun _ _ _ => trivial) _) hruns
    ⟨fun _ _ _ _ hcall => (by cases hcall), backed_new clock⟩

/-- The verifier is asked on behalf of an address as often as the limiter admits
it, at most. -/
theorem Backed.verified_le (h : Backed limit windowMs g) (hlimit : 1 ≤ limit) (hwindow : 0 < windowMs)
    (address : String) (t L : ℚ) :
    (verifiedTimes address g).countP (fun now => decide (t ≤ now ∧ now < t + L)) ≤
      ⌈limit⌉₊ * (⌈L / windowMs⌉₊ + 1) := by
  obtain ⟨es, hrun, horder, -, hverified⟩ := h
  have hpos : 0 < limit := zero_lt_one.trans_le hlimit
  have hbound := @countP_answered_le _ _ _ _ _ limit _ t (t + L) none _ hwindow
    (ConnectionRateLimiter.pairwise_timesOf horder address)
  rw [← ConnectionRateLimiter.answersOf_eq hpos hrun horder address, add_sub_cancel_left] at hbound
  refine (hverified address).countP_le.trans (le_of_eq_of_le ?_ hbound)
  unfold admittedTimes
  rw [List.countP_map, List.countP_filter]
  exact List.countP_congr fun answer _ => by simp [AdmittedIn, and_comm]

end Budget

-- ---------------------------------------------------------------------------
-- Whole runs
-- ---------------------------------------------------------------------------

end Upgrade

def UpgradeCall.verifies : UpgradeCall → Bool
  | .verify _ => true
  | _ => false

def UpgradeCall.registers : UpgradeCall → Bool
  | .register _ _ => true
  | _ => false

namespace Upgrade

/-- One attempt, however far it has come. -/
structure Proper (newURL : UrlParser) (req : UpgradeRequest) (h : History)
    (status : Status upgrades Failure Unit Gateway) : Prop where
  verifiedOnce : h.countP (fun e => e.1.verifies) ≤ 1
  /-- with its own token, once it has been let in -/
  verified : ∀ token x, ⟨.verify token, x⟩ ∈ h →
    HasToken newURL req token ∧ ∃ rest, h = ⟨.allow (sourceOf req), .ok true⟩ :: rest
  registeredOnce : h.countP (fun e => e.1.registers) ≤ 1
  /-- directly after a handshake that was performed, for the user that its token was
  verified as, and with only the timer of the same socket to follow -/
  registered : ∀ userId socket x, ⟨.register userId socket, x⟩ ∈ h → ∃ identity h₀ rest,
    Identified newURL req identity h₀ ∧ identity.userId = userId ∧
      h = h₀ ++ ⟨.handleUpgrade, .ok (some socket)⟩ :: ⟨.register userId socket, x⟩ :: rest ∧
      ∀ e ∈ rest, e.1 = .now ∨ ∃ delay, e.1 = .closeAfter socket delay
  ends : ∀ x, status = .settled x → Ended newURL req x h

theorem Identified.length {newURL : UrlParser} {req : UpgradeRequest} {identity : VerifiedIdentity} {h : History}
    (hh : Identified newURL req identity h) : h.length = 2 := by
  obtain ⟨h₀, token, hletIn, -, rfl⟩ := hh
  rw [show h₀ = _ from hletIn]
  rfl

/-- The history of a socket that has been registered determines the socket. -/
theorem Registered.socket_eq {newURL : UrlParser} {req : UpgradeRequest} {identity : VerifiedIdentity}
    {socket socket' : Nat} {h₀ h rest t : History} {e : upgrades.Event Failure} (hlength : h₀.length = 2)
    (hh : Registered newURL req identity socket' h)
    (heq : h₀ ++ ⟨.handleUpgrade, .ok (some socket)⟩ :: e :: rest = h ++ t) : socket' = socket := by
  obtain ⟨h₁, hidentified, rfl⟩ := hh
  rw [List.append_assoc] at heq
  obtain ⟨-, hrest⟩ := List.append_inj heq (hlength.trans hidentified.length.symm)
  cases hrest
  rfl

/-- The attempt is answered before it has come to a handshake. -/
theorem write_early {newURL : UrlParser} {req : UpgradeRequest} {h : History} {text : String}
    (hallows : allows newURL req h (.write text)) : h.length ≤ 2 := by
  rcases hallows with ⟨hrefused, -⟩ | ⟨⟨hletIn, -⟩ | ⟨h₀, token, e, hletIn, -, rfl⟩, -⟩
  · rw [hrefused]
    exact Nat.le_succ 1
  · rw [show h = _ from hletIn]
    exact Nat.le_succ 1
  · rw [show h₀ = _ from hletIn]
    exact le_rfl

/-- What is allowed once a socket is registered. -/
theorem allows_registered {newURL : UrlParser} {req : UpgradeRequest} {h₀ h t : History} {socket : Nat}
    {userId : String} {x : Except Failure Unit} {call : UpgradeCall} (hlength : h₀.length = 2)
    (hsplit : h = h₀ ++ ⟨.handleUpgrade, .ok (some socket)⟩ :: ⟨.register userId socket, x⟩ :: t)
    (hlawful : (rules newURL req).Lawful h) (hallows : allows newURL req h call) :
    call = .now ∨ ∃ delay, call = .closeAfter socket delay := by
  have hlong : 4 ≤ h.length := by
    rw [hsplit, List.length_append, hlength, List.length_cons, List.length_cons]
    omega
  cases call with
  | now => exact .inl rfl
  | closeAfter socket' delay =>
    obtain ⟨identity, expiresAt, h₁, now, hregistered, -, hlast, -⟩ := hallows
    obtain rfl := hregistered.socket_eq hlength (hsplit.symm.trans hlast)
    exact .inr ⟨delay, rfl⟩
  | allow key =>
    rw [hallows.1] at hlong
    exact absurd hlong (by decide)
  | verify token =>
    have hone : h.length = 1 := congrArg List.length hallows.1
    omega
  | write text =>
    have hearly := write_early hallows
    omega
  | destroy =>
    obtain ⟨h₁, text, hlast⟩ := hallows
    have hearly := write_early (hlawful h₁ _ [] hlast)
    rw [hlast, List.length_append, List.length_singleton] at hlong
    omega
  | handleUpgrade =>
    obtain ⟨identity, hidentified⟩ := hallows
    rw [hidentified.length] at hlong
    omega
  | register userId' socket' =>
    obtain ⟨identity, h₁, hidentified, hlast, -⟩ := hallows
    rw [hlast, List.length_append, hidentified.length, List.length_singleton] at hlong
    omega

theorem proper_of_covers {newURL : UrlParser} {req : UpgradeRequest} {h : History}
    {status : Status upgrades Failure Unit Gateway}
    (hc : (rules newURL req).Covers (Ended newURL req) h status) : Proper newURL req h status := by
  refine ⟨?_, fun token x hmem => ?_, ?_, fun userId socket x hmem => ?_, hc.settled⟩
  · refine hc.lawful.countP_le_one (p := UpgradeCall.verifies) (k := 1) fun h call hallows hcall => ?_
    cases call with
    | verify token => exact congrArg List.length hallows.1
    | _ => cases hcall
  · obtain ⟨h₁, h₂, rfl⟩ := List.append_of_mem hmem
    obtain ⟨hletIn, hhas⟩ := hc.lawful h₁ _ h₂ rfl
    refine ⟨hhas, ⟨.verify token, x⟩ :: h₂, ?_⟩
    rw [show h₁ = _ from hletIn]
    rfl
  · refine hc.lawful.countP_le_one (p := UpgradeCall.registers) (k := 3) fun h call hallows hcall => ?_
    cases call with
    | register userId socket =>
      obtain ⟨identity, h₀, hidentified, rfl, -⟩ := hallows
      rw [List.length_append, hidentified.length]
      rfl
    | _ => cases hcall
  · obtain ⟨h₁, h₂, rfl⟩ := List.append_of_mem hmem
    obtain ⟨identity, h₀, hidentified, rfl, rfl⟩ := hc.lawful h₁ _ h₂ rfl
    refine ⟨identity, h₀, h₂, hidentified, rfl, List.append_assoc _ _ _, fun e he => ?_⟩
    obtain ⟨t₁, t₂, rfl⟩ := List.append_of_mem he
    have hlawful := hc.lawful
    have hsplit : h₀ ++ [⟨.handleUpgrade, .ok (some socket)⟩] ++
        ⟨.register identity.userId socket, x⟩ :: (t₁ ++ e :: t₂) =
        (h₀ ++ ⟨.handleUpgrade, .ok (some socket)⟩ :: ⟨.register identity.userId socket, x⟩ :: t₁) ++ e :: t₂ := by
      simp
    rw [hsplit] at hlawful
    exact allows_registered hidentified.length rfl (.of_append hlawful) (hlawful _ e t₂ rfl)

/-- Any number of attempts at once, with sweeps in between: each is verified and
registered once at most, after the limiter and for its own token; and in no
interval is the verifier asked more often on behalf of an address than the
limiter's windows in it allow, and one more. -/
theorem attempts_admitted {newURL : UrlParser} {limit windowMs : ℚ} {clock : Int} (hlimit : 1 ≤ limit)
    (hwindow : 0 < windowMs) {ls : List (Label GatewayInput UpgradeRequest)}
    {c : Config upgrades Failure Unit Gateway UpgradeRequest}
    (hruns : (gateway newURL).runs (.idle (.new limit windowMs clock)) ls = some c) :
    (∀ id req h status, c.calls id = some ⟨req, h, status⟩ → Proper newURL req h status) ∧
      ∀ address t L, (verifiedTimes address c.world).countP (fun now => decide (t ≤ now ∧ now < t + L)) ≤
        ⌈limit⌉₊ * (⌈L / windowMs⌉₊ + 1) := by
  obtain ⟨hcovered, hbacked⟩ := runs_orderly hruns
  refine ⟨fun id req h status hcall => proper_of_covers (hcovered id req h status hcall), ?_⟩
  exact fun address t L => hbacked.verified_le hlimit hwindow address t L

/-- A parser that finds the same token in everything. -/
def withToken : UrlParser := fun _ _ => .ok ⟨[("token", "t")]⟩

/-- A turn at `now`, with a verifier that takes everybody for Ann. -/
def annAt (now : Int) : GatewayInput := ⟨[], now, fun _ => .ok ⟨"ann", none⟩, true⟩

/-- Two attempts from one address, where one is let in. -/
theorem attempts_admitted_flooded :
    ∃ c, (gateway withToken).runs (.idle (.new 1 1000 0))
      [.call 0 ⟨none, some "1.2.3.4"⟩ (annAt 1), .resume 0 (annAt 2),
        .call 1 ⟨none, some "1.2.3.4"⟩ (annAt 3)] = some c ∧
      verifiedTimes "1.2.3.4" c.world = [1] ∧
      (∀ id req h status, c.calls id = some ⟨req, h, status⟩ → Proper withToken req h status) ∧
        ∀ address t L, (verifiedTimes address c.world).countP (fun now => decide (t ≤ now ∧ now < t + L)) ≤
          ⌈(1 : ℚ)⌉₊ * (⌈L / 1000⌉₊ + 1) := by
  have hruns : (gateway withToken).runs (.idle (.new 1 1000 0))
      [.call 0 ⟨none, some "1.2.3.4"⟩ (annAt 1), .resume 0 (annAt 2),
        .call 1 ⟨none, some "1.2.3.4"⟩ (annAt 3)] = some _ := rfl
  exact ⟨_, hruns, by decide +kernel, attempts_admitted le_rfl (by norm_num) hruns⟩

end Upgrade

end Jiffy
