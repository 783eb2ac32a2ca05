import Tellodb.Platform.Store
import Tellodb.Relational.Since

/-!
# Requests to the platform

The handlers of `api/handlers/platform.rs` and `api/handlers/system.rs` that write the platform
store, the check of the key of a request, the purge that `main.rs` runs from time to time, and the
writes of the platform writer. A run is a list of these in any order. A handler of a user finds out
who is asking from the session token of the request. -/

namespace Tellodb

open Relational

/-- `SESSION_TTL_SECONDS` -/
def sessionTtlSeconds : UInt64 := 2592000

/-- `session_user_from_headers`, for the token of the request. -/
def sessionUser (P : PlatformStore) (bearer : String) (now : UInt64) : Except String PublicUser :=
  (P.resolveSession bearer now).elim (.error "unauthorized") .ok

/-- `platform_signup_handler`. The clock is read for the user and again for the session. -/
def platformSignup (crypto : PlatformCrypto) (P : PlatformStore)
    (username password userToken salt token : String) (now sessionNow : UInt64) :
    PlatformStore × Except String (String × PublicUser) :=
  match P.createUser crypto username password userToken salt now with
  | .error e => (P, .error e)
  | .ok created =>
    match created.1.createSession created.2.userId sessionTtlSeconds token sessionNow with
    | .error e => (created.1, .error e)
    | .ok session => (session.1, .ok (session.2, created.2))

/-- `platform_login_handler` -/
def platformLogin (crypto : PlatformCrypto) (P : PlatformStore) (username password token : String)
    (now : UInt64) : PlatformStore × Except String (String × PublicUser) :=
  match P.login crypto username password with
  | .error e => (P, .error e)
  | .ok user =>
    match P.createSession user.userId sessionTtlSeconds token now with
    | .error e => (P, .error e)
    | .ok session => (session.1, .ok (session.2, user))

/-- `platform_create_api_key_handler`: a key of a user belongs to no cluster. -/
def platformCreateApiKey (crypto : PlatformCrypto) (P : PlatformStore)
    (bearer name keyToken rawToken : String) (now : UInt64) :
    PlatformStore × Except String String :=
  match sessionUser P bearer now with
  | .error e => (P, .error e)
  | .ok user =>
    match P.createApiKeyForCluster crypto user.userId name none keyToken rawToken now with
    | .error e => (P, .error e)
    | .ok created => (created.1, .ok created.2)

/-- `platform_revoke_api_key_handler` -/
def platformRevokeApiKey (P : PlatformStore) (bearer keyId : String) (now : UInt64) :
    PlatformStore × Except String Unit :=
  match sessionUser P bearer now with
  | .error e => (P, .error e)
  | .ok user =>
    match P.revokeApiKey user.userId keyId with
    | .error e => (P, .error e)
    | .ok revoked => (revoked, .ok ())

/-- What is done to the platform store. -/
inductive PlatformRequest where
  | signup (username password userToken salt token : String) (now sessionNow : UInt64)
  | login (username password token : String) (now : UInt64)
  | logout (bearer : String)
  | createApiKey (bearer name keyToken rawToken : String) (now : UInt64)
  | revokeApiKey (bearer keyId : String) (now : UInt64)
  | adminInjectApiKey (keyId userId name token : String) (clusterId : Option String)
    (now : UInt64)
  | adminRevokeApiKey (keyId : String)
  | authenticate (rawKey : String) (instant : ℕ) (now : UInt64)
  | purge (now : UInt64)
  | recordUsage (userId endpoint : String) (count : ℕ) (now : UInt64)
  | updateProfile (update : ProfileUpdate)

/-- The store after a request. -/
def PlatformStore.step (crypto : PlatformCrypto) (P : PlatformStore) :
    PlatformRequest → PlatformStore
  | .signup username password userToken salt token now sessionNow =>
    (platformSignup crypto P username password userToken salt token now sessionNow).1
  | .login username password token now => (platformLogin crypto P username password token now).1
  | .logout bearer => P.deleteSession bearer
  | .createApiKey bearer name keyToken rawToken now =>
    (platformCreateApiKey crypto P bearer name keyToken rawToken now).1
  | .revokeApiKey bearer keyId now => (platformRevokeApiKey P bearer keyId now).1
  | .adminInjectApiKey keyId userId name token clusterId now =>
    ((P.injectApiKey crypto keyId userId name token clusterId now).toOption).getD P
  | .adminRevokeApiKey keyId => ((P.adminRevokeApiKey keyId).toOption).getD P
  | .authenticate rawKey instant now => (P.authenticateApiKey crypto rawKey instant now).1
  | .purge now => P.purgeExpiredSessions now
  | .recordUsage userId endpoint count now => (P.recordUsageN userId endpoint count now).1
  | .updateProfile update => P.updateProfileFromText update

/-- The store after the requests of a run. -/
def PlatformStore.after (crypto : PlatformCrypto) (requests : List PlatformRequest) :
    PlatformStore :=
  requests.foldl (PlatformStore.step crypto) PlatformStore.new

end Tellodb
