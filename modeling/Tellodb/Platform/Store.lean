import Tellodb.Api.Auth
import Tellodb.Profiles.Stable
import Tellodb.Relational.Unique

/-!
# The platform store

The database of users, sessions, API keys and usage of `platform.rs`. The functions that hash are
parameters (`PlatformCrypto`): SHA-256 for keys, Argon2 with a salt for passwords. What the code
draws at random and reads off the clock is an argument. A statement that fails leaves the tables
alone; SQLite takes a `u64` only up to `i64::MAX` (`Storable`). -/

namespace Tellodb

open Relational

/-! ## Rows -/

/-- `MIN_USERNAME_LENGTH` -/
def minUsernameLength : ℕ := 3

/-- `MIN_PASSWORD_LENGTH` -/
def minPasswordLength : ℕ := 8

/-- `MAX_USERNAME_LENGTH` -/
def maxUsernameLength : ℕ := 64

/-- `MAX_PASSWORD_LENGTH` -/
def maxPasswordLength : ℕ := 4096

/-- `API_KEY_PREFIX_LENGTH` -/
def apiKeyPrefixLength : ℕ := 12

/-- `KEY_TOUCH_INTERVAL`, in nanoseconds. -/
def keyTouchInterval : ℕ := 60000000000

/-- A row of `users`. -/
structure UserRecord where
  userId : String
  username : String
  passwordHash : String
  createdAtMs : UInt64
  deriving DecidableEq

/-- A user as the API shows it. -/
structure PublicUser where
  userId : String
  username : String
  createdAtMs : UInt64
  deriving DecidableEq

/-- A row of `sessions`. -/
structure SessionRow where
  token : String
  userId : String
  createdAtMs : UInt64
  expiresAtMs : UInt64
  deriving DecidableEq

/-- A row of `api_keys`. -/
structure ApiKeyRow where
  keyId : String
  userId : String
  name : String
  keyPrefix : String
  keyHash : String
  createdAtMs : UInt64
  lastUsedMs : Option UInt64
  disabled : Bool
  clusterId : Option String
  deriving DecidableEq

/-- A row of `usage`. -/
structure UsageRow where
  userId : String
  requestCount : ℕ
  ingestCount : ℕ
  queryCount : ℕ
  temporalQueryCount : ℕ
  resetCount : ℕ
  healthCount : ℕ
  versionCount : ℕ
  lastRequestMs : Option UInt64
  deriving DecidableEq

/-- The hash functions of other crates. -/
structure PlatformCrypto where
  sha256Hex : String → String
  /-- The hash of a password under a salt. -/
  hashPassword : String → String → String
  /-- Whether a hash is that of a password. -/
  verifyPassword : String → String → Bool

/-- Functions that hide nothing, for the trace of a run. -/
def PlatformCrypto.plain : PlatformCrypto :=
  ⟨id, fun _ password => password, fun hash password => hash = password⟩

/-- `PlatformStore` -/
structure PlatformStore where
  users : UniqueTable UserRecord.userId UserRecord.username
  sessions : Table SessionRow.token
  apiKeys : UniqueTable ApiKeyRow.keyId ApiKeyRow.keyHash
  usage : Table UsageRow.userId
  userProfiles : UserProfiles
  /-- When the use of each key was last written, on a clock that does not go back. -/
  keyTouched : Table (Prod.fst : String × ℕ → String)

/-- `PlatformStore::new` on a database without tables. -/
def PlatformStore.new : PlatformStore where
  users := UniqueTable.empty _ _
  sessions := Table.empty _
  apiKeys := UniqueTable.empty _ _
  usage := Table.empty _
  userProfiles := Table.empty _
  keyTouched := Table.empty _

/-! ## Users and sessions -/

/-- The name under which a user is stored. -/
def normalizeUsername (username : String) : String :=
  toAsciiLowercase (String.ofList (trim username.toList))

/-- A row of `users` as it is shown. -/
def UserRecord.publicUser (user : UserRecord) : PublicUser :=
  ⟨user.userId, user.username, user.createdAtMs⟩

/-- `create_user`, with the random part of the identifier and the salt. -/
def PlatformStore.createUser (crypto : PlatformCrypto) (P : PlatformStore)
    (username password userToken salt : String) (now : UInt64) :
    Except String (PlatformStore × PublicUser) :=
  let name := normalizeUsername username
  if utf8Len name.toList > maxUsernameLength then .error "username must be at most 64 bytes"
  else if name.isEmpty || utf8Len name.toList < minUsernameLength then
    .error "username must be at least 3 characters"
  else if utf8Len password.toList > maxPasswordLength then
    .error "password must be at most 4096 bytes"
  else if utf8Len password.toList < minPasswordLength then
    .error "password must be at least 8 characters"
  else
    let user : UserRecord :=
      { userId := "usr_" ++ userToken
        username := name
        passwordHash := crypto.hashPassword salt password
        createdAtMs := now }
    if ¬ Storable now then .error "failed to insert user into database"
    else
      match P.users.insert user with
      | none => .error "username already exists"
      | some users => .ok ({ P with users }, user.publicUser)

/-- `login` -/
def PlatformStore.login (crypto : PlatformCrypto) (P : PlatformStore)
    (username password : String) : Except String PublicUser :=
  let name := normalizeUsername username
  if utf8Len name.toList > maxUsernameLength then .error "username must be at most 64 bytes"
  else if utf8Len password.toList > maxPasswordLength then
    .error "password must be at most 4096 bytes"
  else
    match P.users.findOther? name with
    -- An unknown name is answered like a wrong password.
    | none => .error "invalid credentials"
    | some user =>
      if crypto.verifyPassword user.passwordHash password then .ok user.publicUser
      else .error "invalid credentials"

/-- `u64::saturating_mul` -/
def saturatingMul (a b : UInt64) : UInt64 :=
  UInt64.ofNat (min (a.toNat * b.toNat) (2^64 - 1))

/-- `create_session`, with the random part of the token. -/
def PlatformStore.createSession (P : PlatformStore) (userId : String) (ttlSecs : UInt64)
    (token : String) (now : UInt64) : Except String (PlatformStore × String) :=
  let row : SessionRow :=
    { token := "sess_" ++ token
      userId
      createdAtMs := now
      expiresAtMs := saturatingAdd now (saturatingMul ttlSecs 1000).toNat }
  if ¬ Storable now ∨ ¬ Storable row.expiresAtMs then
    .error "failed to insert session into database"
  else if (P.sessions.find? row.token).isSome then
    .error "failed to insert session into database"
  else .ok ({ P with sessions := P.sessions.insertOrIgnore row }, row.token)

/-- `resolve_session` -/
def PlatformStore.resolveSession (P : PlatformStore) (token : String) (now : UInt64) :
    Option PublicUser :=
  (P.sessions.find? token).bind fun session =>
    (P.users.find? session.userId).bind fun user =>
      -- A session is over at its expiry, not after it.
      if now ≥ session.expiresAtMs then none else some user.publicUser

/-- `delete_session` -/
def PlatformStore.deleteSession (P : PlatformStore) (token : String) : PlatformStore :=
  { P with sessions := P.sessions.deleteWhere fun session => session.token = token }

/-- `purge_expired_sessions` -/
def PlatformStore.purgeExpiredSessions (P : PlatformStore) (nowMs : UInt64) : PlatformStore :=
  if ¬ Storable nowMs then P
  else { P with sessions := P.sessions.deleteWhere fun session => session.expiresAtMs ≤ nowMs }

/-! ## API keys -/

/-- The row of a new key. -/
def newApiKeyRow (crypto : PlatformCrypto) (keyId userId name rawKey : String)
    (clusterId : Option String) (now : UInt64) : ApiKeyRow where
  keyId := keyId
  userId := userId
  name := String.ofList (trim name.toList)
  keyPrefix := String.ofList (rawKey.toList.take apiKeyPrefixLength)
  keyHash := crypto.sha256Hex rawKey
  createdAtMs := now
  lastUsedMs := none
  disabled := false
  clusterId := clusterId

/-- `create_api_key_for_cluster`, with the random parts of the identifier and of the key. -/
def PlatformStore.createApiKeyForCluster (crypto : PlatformCrypto) (P : PlatformStore)
    (userId name : String) (clusterId : Option String) (keyToken rawToken : String)
    (now : UInt64) : Except String (PlatformStore × String) :=
  let rawKey := "ak_" ++ rawToken
  let row := newApiKeyRow crypto ("key_" ++ keyToken) userId name rawKey clusterId now
  if ¬ Storable now then .error "failed to insert API key into database"
  else
    match P.apiKeys.insert row with
    | none => .error "failed to insert API key into database"
    | some apiKeys => .ok ({ P with apiKeys }, rawKey)

/-- `inject_api_key` -/
def PlatformStore.injectApiKey (crypto : PlatformCrypto) (P : PlatformStore)
    (keyId userId name rawKey : String) (clusterId : Option String) (now : UInt64) :
    Except String PlatformStore :=
  let row := newApiKeyRow crypto keyId userId name rawKey clusterId now
  if ¬ Storable now then .error "failed to inject API key into database"
  else .ok { P with apiKeys := P.apiKeys.insertOrReplace row }

/-- `SET disabled = 1` -/
def ApiKeyRow.disable : UniqueAssignment ApiKeyRow.keyId ApiKeyRow.keyHash where
  set row := { row with disabled := true }
  key_set _ := rfl
  other_set _ := rfl

/-- `SET last_used_ms = ?1` -/
def ApiKeyRow.touch (now : UInt64) : UniqueAssignment ApiKeyRow.keyId ApiKeyRow.keyHash where
  set row := { row with lastUsedMs := some now }
  key_set _ := rfl
  other_set _ := rfl

/-- An `UPDATE` that disables keys, and an error if there is none to disable. -/
def PlatformStore.disableKeys (P : PlatformStore) (p : ApiKeyRow → Bool) :
    Except String PlatformStore :=
  if P.apiKeys.rows.any p then
    .ok { P with apiKeys := P.apiKeys.updateWhere p ApiKeyRow.disable }
  else .error "api key not found"

/-- `revoke_api_key` -/
def PlatformStore.revokeApiKey (P : PlatformStore) (userId keyId : String) :
    Except String PlatformStore :=
  P.disableKeys fun row => row.keyId = keyId && row.userId = userId

/-- `admin_revoke_api_key` -/
def PlatformStore.adminRevokeApiKey (P : PlatformStore) (keyId : String) :
    Except String PlatformStore :=
  P.disableKeys fun row => row.keyId = keyId

/-- `touch_key`: the use of a key is written at most once in an interval. The map is updated before
the row is. -/
def PlatformStore.touchKey (P : PlatformStore) (keyId : String) (instant : ℕ) (now : UInt64) :
    PlatformStore × Except String Unit :=
  -- Another use within the interval is not written.
  if (P.keyTouched.find? keyId).any fun last => instant - last.2 < keyTouchInterval then (P, .ok ())
  else
    let noted := { P with keyTouched := P.keyTouched.insertOrReplace (keyId, instant) }
    if ¬ Storable now then (noted, .error "failed to update API key last_used timestamp")
    else
      let apiKeys := P.apiKeys.updateWhere (fun row => row.keyId = keyId) (ApiKeyRow.touch now)
      ({ noted with apiKeys }, .ok ())

/-- Who a key is accepted for. -/
def PlatformStore.acceptedKey (crypto : PlatformCrypto) (P : PlatformStore) (rawKey : String) :
    Option ApiKeyAuth :=
  ((P.apiKeys.findOther? (crypto.sha256Hex rawKey)).filter fun row => !row.disabled).map
    fun row => ⟨row.userId, row.keyId, row.clusterId⟩

/-- `authenticate_api_key` -/
def PlatformStore.authenticateApiKey (crypto : PlatformCrypto) (P : PlatformStore)
    (rawKey : String) (instant : ℕ) (now : UInt64) :
    PlatformStore × Except String (Option ApiKeyAuth) :=
  match P.acceptedKey crypto rawKey with
  | none => (P, .ok none)
  | some auth =>
    -- An error in writing the use is an error of the check.
    let touched := P.touchKey auth.keyId instant now
    (touched.1, touched.2.map fun _ => some auth)

/-! ## Usage -/

/-- `is_safe_user_id` -/
def isSafeUserId (userId : String) : Bool :=
  let bytes := utf8Bytes userId
  if ¬ (8 ≤ bytes.length ∧ bytes.length ≤ 128) then false
  else if ¬ (utf8Bytes "usr_").isPrefixOf bytes then false
  else bytes.all fun b => isAsciiAlphanumericByte b || b = 0x5F

/-- A row of `usage` with the defaults of its columns. -/
def UsageRow.initial (userId : String) : UsageRow :=
  ⟨userId, 0, 0, 0, 0, 0, 0, 0, none⟩

/-- What the `UPDATE` for an endpoint does to a row. -/
def UsageRow.count (endpoint : String) (n : ℕ) (now : UInt64) (row : UsageRow) : UsageRow :=
  -- Every endpoint counts as a request, whether it has a counter of its own or not.
  let counted := { row with requestCount := row.requestCount + n, lastRequestMs := some now }
  if endpoint = "ingest" then { counted with ingestCount := row.ingestCount + n }
  else if endpoint = "query" then { counted with queryCount := row.queryCount + n }
  else if endpoint = "temporal_query" then
    { counted with temporalQueryCount := row.temporalQueryCount + n }
  else if endpoint = "reset" then { counted with resetCount := row.resetCount + n }
  else if endpoint = "health" then { counted with healthCount := row.healthCount + n }
  else if endpoint = "version" then { counted with versionCount := row.versionCount + n }
  else counted

/-- Counting does not change whose row it is. -/
theorem UsageRow.userId_count (endpoint : String) (n : ℕ) (now : UInt64) (row : UsageRow) :
    (row.count endpoint n now).userId = row.userId := by
  unfold UsageRow.count
  dsimp only
  split_ifs <;> rfl

/-- The `SET` part of that `UPDATE`. -/
def UsageRow.counting (endpoint : String) (n : ℕ) (now : UInt64) : Assignment UsageRow.userId :=
  ⟨UsageRow.count endpoint n now, UsageRow.userId_count endpoint n now⟩

/-- What is said where the `UPDATE` for an endpoint fails. -/
def usageErrorText (endpoint : String) : String :=
  if endpoint ∈ ["ingest", "query", "temporal_query", "reset", "health", "version"] then
    "failed to update " ++ endpoint ++ " usage counters"
  else "failed to update generic usage counters"

/-- `record_usage_n`: the row of the user is there before its identifier is checked. -/
def PlatformStore.recordUsageN (P : PlatformStore) (userId endpoint : String) (count : ℕ)
    (now : UInt64) : PlatformStore × Except String Unit :=
  if count = 0 then (P, .ok ())
  else
    let usage := P.usage.insertOrIgnore (UsageRow.initial userId)
    if ¬ isSafeUserId userId then
      ({ P with usage }, .error "record_usage_n: user_id failed format check")
    else if ¬ Storable now then ({ P with usage }, .error (usageErrorText endpoint))
    else
      let counted := usage.updateWhere (fun row => row.userId = userId)
        (UsageRow.counting endpoint count now)
      ({ P with usage := counted }, .ok ())

/-- `usage_stats` -/
def PlatformStore.usageStats (P : PlatformStore) (userId : String) : UsageRow :=
  (P.usage.find? userId).getD (UsageRow.initial userId)

/-- `update_profile_from_text` -/
def PlatformStore.updateProfileFromText (P : PlatformStore) (update : ProfileUpdate) :
    PlatformStore :=
  { P with userProfiles := UserProfiles.update P.userProfiles update }

end Tellodb
