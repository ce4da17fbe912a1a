-- SUMMARY: JwtTokenVerifier: what it takes a token's claims for.
import Jiffy.Adapters.Redis
import Jiffy.Lib.Double
import Jiffy.WebSocket.Upgrade

/-!
# Token verifier

`src/adapters/jwt/token-verifier.ts`. `jwtVerify` is a package's: its payload is
whatever JSON object the token carries.
-/

namespace Jiffy

open Js

/-- The claims of a token. -/
abbrev JwtPayload : Type := List (String × Json)

def JwtPayload.claim (payload : JwtPayload) (name : String) : Option Json :=
  (payload.find? fun field => field.1 = name).map Prod.snd

structure JwtTokenVerifier where
  /-- `jwtVerify(token, this.key, ..)`: the payload, or the message of its error -/
  jwtVerify : String → Except String JwtPayload
  userIdClaim : String := "sub"

namespace JwtTokenVerifier

/-- The message of an `InvalidTokenError`. -/
def invalidToken (reason : String) : String := s!"Invalid token: {reason}"

/-- `new Date(exp * 1000)`. -/
def dateOfSeconds (exp : Number) : Date := RedisMessageBus.timeClip (exp.mul (.finite (1000 : ℤ)))

def expiresAt (payload : JwtPayload) : Option Date :=
  match payload.claim "exp" with
  | some (.number exp) => some (dateOfSeconds exp)
  | _ => none

variable (verifier : JwtTokenVerifier)

def verifyPayload (token : String) : Except String JwtPayload :=
  (verifier.jwtVerify token).mapError invalidToken

def verify (token : String) : Except String VerifiedIdentity := do
  let payload ← verifier.verifyPayload token
  let userIdClaim := verifier.userIdClaim
  let missing := invalidToken s!"missing or non-string \"{userIdClaim}\" claim"
  match payload.claim userIdClaim with
  | some (.string userId) =>
    if userId = "" then throw missing else return ⟨userId, expiresAt payload⟩
  | _ => throw missing

/-- The expiry of a verified identity is its token's numeric `exp`. -/
theorem expiresAt_of_verify {verifier : JwtTokenVerifier} {token : String} {identity : VerifiedIdentity}
    (h : verifier.verify token = .ok identity) {date : Date} (hdate : identity.expiresAt = some date) :
    ∃ payload exp, verifier.jwtVerify token = .ok payload ∧
      payload.claim "exp" = some (.number exp) ∧ date = dateOfSeconds exp := by
  unfold verify verifyPayload at h
  cases hpayload : verifier.jwtVerify token with
  | error reason =>
    rw [hpayload] at h
    cases h
  | ok payload =>
    rw [hpayload] at h
    have hexpires : expiresAt payload = some date := by
      simp only [Except.mapError, bind, Except.bind] at h
      split at h
      · split at h
        · cases h
        · cases h
          exact hdate
      · cases h
    unfold expiresAt at hexpires
    split at hexpires
    · next exp hexp =>
      cases hexpires
      exact ⟨payload, exp, rfl, hexp, rfl⟩
    · cases hexpires

/-- Whole seconds that a date can hold become that instant exactly. -/
theorem dateOfSeconds_int {seconds : ℤ} (h : IsTime (seconds * 1000)) :
    dateOfSeconds (.finite seconds) = Date.of (seconds * 1000) := by
  have hbits : |seconds * 1000| ≤ 2 ^ 53 := by
    unfold IsTime at h
    rw [abs_le]
    omega
  unfold dateOfSeconds
  rw [mul_int hbits]
  unfold RedisMessageBus.timeClip
  simp only [Rat.num_intCast, Rat.den_intCast, Nat.cast_one, Int.tdiv_one, if_pos h, Date.of]

end JwtTokenVerifier

end Jiffy
