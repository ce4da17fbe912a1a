-- SUMMARY: parseEnv: the configurations that the process starts with are exactly the well-formed ones, each spelled out by an environment.
import Jiffy.Lib.Json

/-!
# Environment

`parseEnv` of `src/main.ts` and what it calls: the checks in their order, each
with its message, and the configuration they leave.
-/

namespace Jiffy

open Js

/-- `process.env`. -/
abbrev ProcessEnv : Type := String → Option String

/-- An endpoint of the host: `ConversationGateEnvConfig`, `MessageNotifyEnvConfig`. -/
structure CallbackEnvConfig where
  url : String
  secret : String
deriving DecidableEq, Repr

/-- What tokens are verified with. -/
inductive JwtKey where
  | secret (secret : String)
  | jwks (uri : String)
deriving DecidableEq, Repr

structure JwtEnvConfig where
  key : JwtKey
  issuer : Option String
  audience : Option String
  userIdClaim : Option String
deriving DecidableEq, Repr

structure ParsedEnv where
  databaseUrl : String
  port : Number
  jwt : JwtEnvConfig
  /-- Unset means run as a single instance. -/
  redisUrl : Option String
  /-- Unset means any two authenticated callers may talk. -/
  conversationGate : Option CallbackEnvConfig
  /-- Unset means no notification fires when a message is sent. -/
  messageNotify : Option CallbackEnvConfig
  corsOrigins : List String
deriving DecidableEq

-- ---------------------------------------------------------------------------
-- Reading
-- ---------------------------------------------------------------------------

/-- A value that is set and not empty, the way `!value` tests it. -/
def truthy (value : Option String) : Option String := value.filter fun text => text ≠ ""

/-- `Number.isInteger`. -/
def isInteger : Number → Bool
  | .finite q => q.den = 1
  | _ => false

/-- `text.split(separator)`. -/
def split (text : String) (separator : Char) : List String :=
  (text.toList.splitOn separator).map String.ofList

/-- A URL and a secret that must be set together or not at all. -/
def readCallbackEnv (env : ProcessEnv) (urlName secretName : String) :
    Except String (Option CallbackEnvConfig) :=
  match truthy (env urlName), truthy (env secretName) with
  | none, none => .ok none
  | some url, some secret => .ok (some { url, secret })
  | _, _ => .error s!"{urlName} and {secretName} must both be set, or neither"

def readConversationGateEnv (env : ProcessEnv) : Except String (Option CallbackEnvConfig) :=
  readCallbackEnv env "CONVERSATION_GATE_URL" "CONVERSATION_GATE_SECRET"

def readMessageNotifyEnv (env : ProcessEnv) : Except String (Option CallbackEnvConfig) :=
  readCallbackEnv env "MESSAGE_NOTIFY_URL" "MESSAGE_NOTIFY_SECRET"

/-- `raw.split(',').map((origin) => origin.trim()).filter(Boolean)`. -/
def originsOf (raw : String) : List String :=
  ((split raw ',').map trim).filter fun origin => origin ≠ ""

def readCorsOriginEnv (env : ProcessEnv) : Except String (List String) :=
  match truthy (env "CORS_ORIGIN") with
  | none => .error ("Missing required environment variable: CORS_ORIGIN " ++
      "(comma-separated list of allowed browser origins, e.g. https://www.goalslot.io)")
  | some raw =>
    if originsOf raw = [] then .error "CORS_ORIGIN is set but contains no valid origins"
    else .ok (originsOf raw)

/-- `env.PORT !== undefined ? Number(env.PORT) : 8080`. -/
def portOf (reader : TextReader) (env : ProcessEnv) : Number :=
  match env "PORT" with
  | some text => reader.number text
  | none => .finite 8080

def readPort (reader : TextReader) (env : ProcessEnv) : Except String Number :=
  if !isInteger (portOf reader env) || (portOf reader env).le (.finite 0) then
    .error ("Invalid PORT: " ++ (env "PORT").getD "undefined")
  else .ok (portOf reader env)

/-- `JWT_JWKS_URI` wins if both are set. -/
def readJwtKey (env : ProcessEnv) : Except String JwtKey :=
  match truthy (env "JWT_JWKS_URI"), truthy (env "JWT_SECRET") with
  | some uri, _ => .ok (.jwks uri)
  | none, some secret => .ok (.secret secret)
  | none, none => .error "Set either JWT_JWKS_URI or JWT_SECRET"

def readDatabaseUrl (env : ProcessEnv) : Except String String :=
  match truthy (env "DATABASE_URL") with
  | some databaseUrl => .ok databaseUrl
  | none => .error "Missing required environment variable: DATABASE_URL"

def parseEnv (reader : TextReader) (env : ProcessEnv) : Except String ParsedEnv := do
  let databaseUrl ← readDatabaseUrl env
  let port ← readPort reader env
  let conversationGate ← readConversationGateEnv env
  let messageNotify ← readMessageNotifyEnv env
  let key ← readJwtKey env
  let corsOrigins ← readCorsOriginEnv env
  return {
    databaseUrl, port, conversationGate, messageNotify, corsOrigins
    redisUrl := env "REDIS_URL"
    jwt := {
      key, issuer := env "JWT_ISSUER", audience := env "JWT_AUDIENCE"
      userIdClaim := env "JWT_USER_ID_CLAIM" } }

-- ---------------------------------------------------------------------------
-- Lists of origins
-- ---------------------------------------------------------------------------

theorem not_mem_splitOn {α : Type} [DecidableEq α] (a : α) (xs : List α) : ∀ l ∈ xs.splitOn a, a ∉ l := by
  induction xs with
  | nil => simp
  | cons x xs ih =>
    rw [List.splitOn_cons_eq_if_modifyHead]
    split
    next => exact List.forall_mem_cons.mpr ⟨List.not_mem_nil, ih⟩
    next hne =>
      cases hparts : xs.splitOn a with
      | nil => exact absurd hparts (List.splitOn_ne_nil a xs)
      | cons part parts =>
        rw [hparts] at ih
        have hpart : a ∉ x :: part := by
          simp only [List.mem_cons, not_or]
          exact ⟨fun h => hne (beq_iff_eq.mpr h.symm), ih part List.mem_cons_self⟩
        exact List.forall_mem_cons.mpr ⟨hpart, fun l hl => ih l (List.mem_cons_of_mem _ hl)⟩

theorem mem_of_mem_trim {s : String} {c : Char} (h : c ∈ (trim s).toList) : c ∈ s.toList := by
  rw [trim, String.toList_ofList] at h
  exact (List.dropWhile_sublist _).subset ((List.rdropWhile_prefix _ _).subset h)

theorem trim_trim (s : String) : trim (trim s) = trim s := by
  have hidle (l : List Char) : ((l.dropWhile isWhiteSpace).rdropWhile isWhiteSpace).dropWhile isWhiteSpace =
      (l.dropWhile isWhiteSpace).rdropWhile isWhiteSpace := by
    obtain ⟨rest, hrest⟩ := List.rdropWhile_prefix isWhiteSpace (l.dropWhile isWhiteSpace)
    have hstart := List.dropWhile_idempotent isWhiteSpace l
    cases hkept : (l.dropWhile isWhiteSpace).rdropWhile isWhiteSpace with
    | nil => rfl
    | cons c kept =>
      -- what is left starts as the text without its leading whitespace does
      rw [hkept, List.cons_append] at hrest
      rw [← hrest, List.dropWhile_eq_self_iff] at hstart
      exact List.dropWhile_eq_self_iff.mpr fun _ => hstart (Nat.succ_pos _)
  unfold trim
  rw [String.toList_ofList, hidle, List.rdropWhile_idempotent]

/-- One entry of `CORS_ORIGIN`: it is not blank, nothing is left to trim, and
the list cannot be cut inside it. -/
structure IsOrigin (origin : String) : Prop where
  nonempty : origin ≠ ""
  trimmed : trim origin = origin
  uncut : ',' ∉ origin.toList

theorem originsOf_isOrigin {raw origin : String} (h : origin ∈ originsOf raw) : IsOrigin origin := by
  obtain ⟨hmem, hne⟩ := List.mem_filter.mp h
  obtain ⟨part, hpart, rfl⟩ := List.mem_map.mp hmem
  obtain ⟨l, hl, rfl⟩ := List.mem_map.mp hpart
  refine ⟨of_decide_eq_true hne, trim_trim _, fun hcut => not_mem_splitOn ',' _ l hl ?_⟩
  have hl := mem_of_mem_trim hcut
  rwa [String.toList_ofList] at hl

/-- `origins.join(',')`. -/
def joinOrigins (origins : List String) : String :=
  String.ofList ([','].intercalate (origins.map String.toList))

theorem originsOf_join {origins : List String} (hne : origins ≠ []) (h : ∀ o ∈ origins, IsOrigin o) :
    originsOf (joinOrigins origins) = origins := by
  have huncut : ∀ l ∈ origins.map String.toList, ',' ∉ l := by
    rw [List.forall_mem_map]
    exact fun o ho => (h o ho).uncut
  have htrim : origins.map trim = origins :=
    (List.map_congr_left fun o ho => (h o ho).trimmed).trans (List.map_id _)
  have hkept : origins.filter (fun o => o ≠ "") = origins :=
    List.filter_eq_self.mpr fun o ho => decide_eq_true (h o ho).nonempty
  have hread : origins.map (String.ofList ∘ String.toList) = origins :=
    (List.map_congr_left fun o _ => String.ofList_toList).trans (List.map_id _)
  unfold originsOf joinOrigins split
  rw [String.toList_ofList, List.splitOn_intercalate ',' huncut (by simpa using hne),
    @List.map_map _ _ _ String.ofList String.toList, hread, htrim, hkept]

-- ---------------------------------------------------------------------------
-- Configurations
-- ---------------------------------------------------------------------------

def JwtKey.text : JwtKey → String
  | .secret text => text
  | .jwks uri => uri

structure CallbackEnvConfig.WellFormed (config : CallbackEnvConfig) : Prop where
  url : config.url ≠ ""
  secret : config.secret ≠ ""

/-- A configuration that the process may start with. -/
structure ParsedEnv.WellFormed (reader : TextReader) (config : ParsedEnv) : Prop where
  databaseUrl : config.databaseUrl ≠ ""
  port : ∃ n : ℕ, 0 < n ∧ config.port = .finite n
  /-- The default, or the value of some text. -/
  written : config.port = .finite 8080 ∨ ∃ text, reader.number text = config.port
  key : config.jwt.key.text ≠ ""
  conversationGate : ∀ callback ∈ config.conversationGate, callback.WellFormed
  messageNotify : ∀ callback ∈ config.messageNotify, callback.WellFormed
  corsOrigins : config.corsOrigins ≠ []
  origins : ∀ origin ∈ config.corsOrigins, IsOrigin origin

/-- An environment that spells a configuration out, its port as the given text. -/
def ParsedEnv.toEnv (config : ParsedEnv) (port : Option String) (name : String) : Option String :=
  match name with
  | "DATABASE_URL" => some config.databaseUrl
  | "PORT" => port
  | "REDIS_URL" => config.redisUrl
  | "CONVERSATION_GATE_URL" => config.conversationGate.map fun callback => callback.url
  | "CONVERSATION_GATE_SECRET" => config.conversationGate.map fun callback => callback.secret
  | "MESSAGE_NOTIFY_URL" => config.messageNotify.map fun callback => callback.url
  | "MESSAGE_NOTIFY_SECRET" => config.messageNotify.map fun callback => callback.secret
  | "JWT_JWKS_URI" => match config.jwt.key with
    | .jwks uri => some uri
    | .secret _ => none
  | "JWT_SECRET" => match config.jwt.key with
    | .jwks _ => none
    | .secret secret => some secret
  | "JWT_ISSUER" => config.jwt.issuer
  | "JWT_AUDIENCE" => config.jwt.audience
  | "JWT_USER_ID_CLAIM" => config.jwt.userIdClaim
  | "CORS_ORIGIN" => some (joinOrigins config.corsOrigins)
  | _ => none

theorem truthy_eq_some_iff {value : Option String} {text : String} :
    truthy value = some text ↔ value = some text ∧ text ≠ "" := by
  simp [truthy, Option.filter_eq_some_iff]

theorem truthy_of_ne {text : String} (h : text ≠ "") : truthy (some text) = some text :=
  truthy_eq_some_iff.mpr ⟨rfl, h⟩

section Reads

variable {reader : TextReader} {env : ProcessEnv} {config : ParsedEnv}

theorem readCallbackEnv_ok {urlName secretName : String} {callback : Option CallbackEnvConfig}
    (h : readCallbackEnv env urlName secretName = .ok callback) : ∀ c ∈ callback, c.WellFormed := by
  unfold readCallbackEnv at h
  split at h
  next => cases h; nofun
  next url secret hurl hsecret =>
    cases h
    rintro _ ⟨⟩
    exact ⟨(truthy_eq_some_iff.mp hurl).2, (truthy_eq_some_iff.mp hsecret).2⟩
  next => cases h

theorem readCallbackEnv_of {urlName secretName : String} {callback : Option CallbackEnvConfig}
    (hurl : env urlName = callback.map fun c => c.url)
    (hsecret : env secretName = callback.map fun c => c.secret)
    (h : ∀ c ∈ callback, c.WellFormed) : readCallbackEnv env urlName secretName = .ok callback := by
  unfold readCallbackEnv
  rw [hurl, hsecret]
  cases callback with
  | none => rfl
  | some c =>
    rw [Option.map_some, Option.map_some, truthy_of_ne (h c rfl).url, truthy_of_ne (h c rfl).secret]

theorem isInteger_iff {q : Number} : isInteger q = true ↔ ∃ z : ℤ, q = .finite z := by
  cases q with
  | finite q =>
    refine decide_eq_true_iff.trans ⟨fun h => ⟨q.num, congrArg Number.finite ?_⟩, ?_⟩
    · exact (Rat.den_eq_one_iff q).mp h |>.symm
    · rintro ⟨z, ⟨⟩⟩
      exact Rat.den_intCast z
  | nan => simp [isInteger]
  | infinity negative => simp [isInteger]

/-- The values that `PORT` may have. -/
theorem isPort_iff {port : Number} :
    (!isInteger port || port.le (.finite 0)) = false ↔ ∃ n : ℕ, 0 < n ∧ port = .finite n := by
  rw [Bool.or_eq_false_iff, Bool.not_eq_false', isInteger_iff]
  constructor
  · rintro ⟨⟨z, rfl⟩, hpos⟩
    have hz : 0 < z := by exact_mod_cast not_le.mp (of_decide_eq_false hpos)
    refine ⟨z.toNat, by omega, congrArg Number.finite ?_⟩
    exact_mod_cast (Int.toNat_of_nonneg hz.le).symm
  · rintro ⟨n, hpos, rfl⟩
    refine ⟨⟨n, by norm_cast⟩, decide_eq_false (not_le.mpr ?_)⟩
    exact_mod_cast hpos

theorem readPort_eq_ok_iff {port : Number} :
    readPort reader env = .ok port ↔ portOf reader env = port ∧ ∃ n : ℕ, 0 < n ∧ port = .finite n := by
  unfold readPort
  split
  next hbad =>
    refine ⟨(by cases ·), ?_⟩
    rintro ⟨heq, hport⟩
    rw [← heq, ← isPort_iff, hbad] at hport
    cases hport
  next hgood =>
    constructor
    · rintro ⟨⟩
      exact ⟨rfl, isPort_iff.mp (Bool.eq_false_iff.mpr hgood)⟩
    · exact fun h => congrArg Except.ok h.1

theorem portOf_written :
    portOf reader env = .finite 8080 ∨ ∃ text, reader.number text = portOf reader env := by
  unfold portOf
  split
  next text _ => exact .inr ⟨text, rfl⟩
  next => exact .inl rfl

theorem readJwtKey_ok {key : JwtKey} (h : readJwtKey env = .ok key) : key.text ≠ "" := by
  unfold readJwtKey at h
  split at h
  next uri _ huri => cases h; exact (truthy_eq_some_iff.mp huri).2
  next secret _ hsecret => cases h; exact (truthy_eq_some_iff.mp hsecret).2
  next => cases h

theorem readCorsOriginEnv_ok {origins : List String} (h : readCorsOriginEnv env = .ok origins) :
    origins ≠ [] ∧ ∀ origin ∈ origins, IsOrigin origin := by
  unfold readCorsOriginEnv at h
  split at h
  next => cases h
  next raw _ =>
    split at h
    next => cases h
    next hne =>
      cases h
      exact ⟨hne, fun origin ho => originsOf_isOrigin ho⟩

theorem readJwtKey_of (hkey : config.jwt.key.text ≠ "") (port : Option String) :
    readJwtKey (config.toEnv port) = .ok config.jwt.key := by
  unfold readJwtKey ParsedEnv.toEnv
  cases hk : config.jwt.key with
  | secret text =>
    rw [hk] at hkey
    simp only [truthy_of_ne (show text ≠ "" from hkey)]
    rfl
  | jwks uri =>
    rw [hk] at hkey
    simp only [truthy_of_ne (show uri ≠ "" from hkey)]

theorem readCorsOriginEnv_of (hne : config.corsOrigins ≠ []) (h : ∀ o ∈ config.corsOrigins, IsOrigin o)
    (port : Option String) : readCorsOriginEnv (config.toEnv port) = .ok config.corsOrigins := by
  have horigins := originsOf_join hne h
  have hraw : joinOrigins config.corsOrigins ≠ "" := by
    intro hempty
    rw [hempty] at horigins
    exact hne horigins.symm
  unfold readCorsOriginEnv
  simp only [show config.toEnv port "CORS_ORIGIN" = some (joinOrigins config.corsOrigins) from rfl,
    truthy_of_ne hraw, horigins, if_neg hne]

theorem readDatabaseUrl_ok {databaseUrl : String} (h : readDatabaseUrl env = .ok databaseUrl) :
    databaseUrl ≠ "" := by
  unfold readDatabaseUrl at h
  split at h
  next url hurl => cases h; exact (truthy_eq_some_iff.mp hurl).2
  next => cases h

theorem bind_eq_ok {α β : Type} {x : Except String α} {f : α → Except String β} {b : β} :
    x >>= f = .ok b ↔ ∃ a, x = .ok a ∧ f a = .ok b := by
  cases x with
  | error e => simp [Bind.bind, Except.bind]
  | ok a => simp [Bind.bind, Except.bind]

/-- The configurations that some environment yields. -/
theorem parseEnv_wellFormed (h : parseEnv reader env = .ok config) : config.WellFormed reader := by
  simp only [parseEnv, bind_eq_ok] at h
  obtain ⟨_, hurl, _, hport, _, hgate, _, hnotify, _, hkey, _, horigins, ⟨⟩⟩ := h
  obtain ⟨rfl, hvalue⟩ := readPort_eq_ok_iff.mp hport
  exact {
    databaseUrl := readDatabaseUrl_ok hurl
    port := hvalue
    written := portOf_written
    key := readJwtKey_ok hkey
    conversationGate := readCallbackEnv_ok hgate
    messageNotify := readCallbackEnv_ok hnotify
    corsOrigins := (readCorsOriginEnv_ok horigins).1
    origins := (readCorsOriginEnv_ok horigins).2 }

theorem parseEnv_toEnv (h : config.WellFormed reader) {port : Option String}
    (hport : portOf reader (config.toEnv port) = config.port) :
    parseEnv reader (config.toEnv port) = .ok config := by
  have hurl : readDatabaseUrl (config.toEnv port) = .ok config.databaseUrl := by
    unfold readDatabaseUrl ParsedEnv.toEnv
    simp only [truthy_of_ne h.databaseUrl]
  simp only [parseEnv, bind_eq_ok]
  exact ⟨_, hurl, _, readPort_eq_ok_iff.mpr ⟨hport, h.port⟩, _, readCallbackEnv_of rfl rfl h.conversationGate,
    _, readCallbackEnv_of rfl rfl h.messageNotify, _, readJwtKey_of h.key port,
    _, readCorsOriginEnv_of h.corsOrigins h.origins port, rfl⟩

theorem exists_port (h : config.WellFormed reader) :
    ∃ port, parseEnv reader (config.toEnv port) = .ok config := by
  rcases h.written with hdefault | ⟨text, htext⟩
  · exact ⟨none, parseEnv_toEnv h hdefault.symm⟩
  · exact ⟨some text, parseEnv_toEnv h htext⟩

/-- The process starts with exactly the well-formed configurations: nothing
else comes out of an environment, and each of them, spelled out as one with
some text of its port, reads back unchanged. -/
theorem parse_image (reader : TextReader) (config : ParsedEnv) :
    ((∃ env, parseEnv reader env = .ok config) ↔ config.WellFormed reader) ∧
      (config.WellFormed reader ↔ ∃ port, parseEnv reader (config.toEnv port) = .ok config) := by
  have himage : ∀ {env}, parseEnv reader env = .ok config → config.WellFormed reader := parseEnv_wellFormed
  constructor
  · constructor
    · exact fun ⟨_, h⟩ => himage h
    · intro h
      obtain ⟨port, hport⟩ := exists_port h
      exact ⟨config.toEnv port, hport⟩
  · constructor
    · exact exists_port
    · exact fun ⟨_, h⟩ => himage h

end Reads

end Jiffy
