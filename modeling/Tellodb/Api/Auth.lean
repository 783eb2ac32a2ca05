import Tellodb.Storage.Tenant

/-!
# Authorization

Who a request is from (`api/auth.rs`). A key is the one of the operator, or that of a user; a user
key is refused unless it belongs to a cluster. `principalUserId` is what the handlers turn into a
tenant: it is the user, and the cluster is not part of it. -/

namespace Tellodb

/-- `ApiKeyAuth` -/
structure ApiKeyAuth where
  userId : String
  keyId : String
  /-- Present when the key belongs to a cluster that is shared. -/
  clusterId : Option String
  deriving DecidableEq

/-- Who a request is from. -/
inductive RequestPrincipal where
  | globalApiKey
  | userApiKey (auth : ApiKeyAuth)
  deriving DecidableEq

/-- The status a request is refused with. -/
inductive StatusCode where
  | badRequest
  | unauthorized
  | forbidden
  | internalServerError
  deriving DecidableEq

/-- `principal_user_id` -/
def principalUserId : RequestPrincipal → Option String
  | .userApiKey auth => some auth.userId
  | .globalApiKey => none

/-- `u8::is_ascii_alphanumeric` -/
def isAsciiAlphanumericByte (b : UInt8) : Bool :=
  (0x30 ≤ b && b ≤ 0x39) || (0x41 ≤ b && b ≤ 0x5A) || (0x61 ≤ b && b ≤ 0x7A)

/-- `is_valid_user_id` -/
def isValidUserId (userId : String) : Bool :=
  let bytes := utf8Bytes userId
  8 ≤ bytes.length && bytes.length ≤ 128 && (utf8Bytes "usr_").isPrefixOf bytes &&
    bytes.all fun b => isAsciiAlphanumericByte b || b = 0x5F

/-- `authorize_global_api_key`: whether the key that is provided is that of the operator. -/
def isGlobalApiKey (apiKey provided : Option String) : Bool :=
  apiKey.all fun expected => provided = some expected

/-- `authorize_request`, for the operator's key, the directory of user keys and the key that is
provided. -/
def authorizeRequest (apiKey : Option String)
    (authenticateApiKey : String → Except String (Option ApiKeyAuth)) (provided : Option String) :
    Except StatusCode RequestPrincipal :=
  if isGlobalApiKey apiKey provided then .ok .globalApiKey
  else
    match provided with
    | none => .error .unauthorized
    | some key =>
      match authenticateApiKey key with
      | .ok (some auth) =>
        if auth.clusterId.isNone then .error .forbidden
        else if isValidUserId auth.userId then .ok (.userApiKey auth)
        else .error .internalServerError
      | .ok none => .error .unauthorized
      | .error _ => .error .internalServerError

end Tellodb
