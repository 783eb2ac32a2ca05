import Tellodb.Platform.Requests

/-!
# Keys that are accepted

The table of API keys holds hashes only, and rows are replaced, disabled and touched as requests
come in. `authenticate_after` says what comes of it over a run: a key is accepted for a user exactly
if it was issued to the user, and since then nobody has revoked it who may, and no other key has
been put in its place. -/

namespace Tellodb

open Relational

variable {crypto : PlatformCrypto} {P : PlatformStore}

/-! ## What the functions do -/

/-- A user that is created is a row more. -/
theorem PlatformStore.createUser_ok {username password userToken salt : String} {now : UInt64}
    {created : PlatformStore × PublicUser}
    (h : P.createUser crypto username password userToken salt now = .ok created) :
    ∃ users, P.users.insert ⟨"usr_" ++ userToken, normalizeUsername username,
        crypto.hashPassword salt password, now⟩ = some users ∧
      created = ({ P with users }, ⟨"usr_" ++ userToken, normalizeUsername username, now⟩) ∧
      utf8Len (normalizeUsername username).toList ≤ maxUsernameLength ∧
      utf8Len password.toList ≤ maxPasswordLength := by
  unfold PlatformStore.createUser at h
  dsimp only at h
  split at h
  · exact absurd h (by simp)
  split at h
  · exact absurd h (by simp)
  split at h
  · exact absurd h (by simp)
  split at h
  · exact absurd h (by simp)
  split at h
  · exact absurd h (by simp)
  split at h
  · exact absurd h (by simp)
  · rename_i hname _ hpassword _ _ _ users hinsert
    exact ⟨users, hinsert, (Except.ok.inj h).symm, Nat.le_of_not_lt hname,
      Nat.le_of_not_lt hpassword⟩

/-- A session that is created is a row more. -/
theorem PlatformStore.createSession_ok {userId token : String} {ttlSecs now : UInt64}
    {created : PlatformStore × String}
    (h : P.createSession userId ttlSecs token now = .ok created) :
    P.sessions.find? ("sess_" ++ token) = none ∧
      created = ({ P with sessions := P.sessions.insertOrIgnore ⟨"sess_" ++ token, userId, now,
        saturatingAdd now (saturatingMul ttlSecs 1000).toNat⟩ }, "sess_" ++ token) := by
  unfold PlatformStore.createSession at h
  dsimp only at h
  split at h
  · exact absurd h (by simp)
  split at h
  · exact absurd h (by simp)
  · rename_i hnone
    exact ⟨by simpa using hnone, (Except.ok.inj h).symm⟩

/-- A key that is created is a row more. -/
theorem PlatformStore.createApiKeyForCluster_ok {userId name keyToken rawToken : String}
    {clusterId : Option String} {now : UInt64} {created : PlatformStore × String}
    (h : P.createApiKeyForCluster crypto userId name clusterId keyToken rawToken now =
      .ok created) :
    ∃ apiKeys, P.apiKeys.insert (newApiKeyRow crypto ("key_" ++ keyToken) userId name
        ("ak_" ++ rawToken) clusterId now) = some apiKeys ∧
      created = ({ P with apiKeys }, "ak_" ++ rawToken) := by
  unfold PlatformStore.createApiKeyForCluster at h
  dsimp only at h
  split at h
  · exact absurd h (by simp)
  split at h
  · exact absurd h (by simp)
  · rename_i apiKeys hinsert
    exact ⟨apiKeys, hinsert, (Except.ok.inj h).symm⟩

/-- A key is accepted for the row that has its hash, unless the row is disabled. -/
theorem PlatformStore.acceptedKey_eq_some {rawKey : String} {auth : ApiKeyAuth} :
    P.acceptedKey crypto rawKey = some auth ↔ ∃ row ∈ P.apiKeys.rows,
      row.keyHash = crypto.sha256Hex rawKey ∧ row.disabled = false ∧
        auth = ⟨row.userId, row.keyId, row.clusterId⟩ := by
  unfold PlatformStore.acceptedKey
  rw [Option.map_eq_some_iff]
  constructor
  · rintro ⟨row, hrow, rfl⟩
    obtain ⟨hfound, henabled⟩ := Option.filter_eq_some_iff.mp hrow
    obtain ⟨hmem, hhash⟩ := UniqueTable.findOther?_eq_some.mp hfound
    exact ⟨row, hmem, hhash, by simpa using henabled, rfl⟩
  · rintro ⟨row, hmem, hhash, henabled, rfl⟩
    refine ⟨row, Option.filter_eq_some_iff.mpr ⟨?_, by simpa using henabled⟩, rfl⟩
    exact UniqueTable.findOther?_eq_some.mpr ⟨hmem, hhash⟩

/-! ## One request -/

/-- A request issues a key: it is created for the user who asks, or injected by the operator. -/
def PlatformRequest.issues (crypto : PlatformCrypto) (P : PlatformStore) (rawKey : String)
    (auth : ApiKeyAuth) : PlatformRequest → Prop
  | .createApiKey bearer name keyToken rawToken now =>
    (platformCreateApiKey crypto P bearer name keyToken rawToken now).2 = .ok rawKey ∧
      (P.resolveSession bearer now).map PublicUser.userId = some auth.userId ∧
      auth.keyId = "key_" ++ keyToken ∧ auth.clusterId = none
  | .adminInjectApiKey keyId userId _ token clusterId now =>
    Storable now ∧ token = rawKey ∧ auth = ⟨userId, keyId, clusterId⟩
  | _ => False

/-- A request withdraws a key: its user or the operator revokes it, or the operator injects a key
with its identifier, or the key again. -/
def PlatformRequest.withdraws (P : PlatformStore) (rawKey : String) (auth : ApiKeyAuth) :
    PlatformRequest → Prop
  | .revokeApiKey bearer keyId now =>
    keyId = auth.keyId ∧ (P.resolveSession bearer now).map PublicUser.userId = some auth.userId
  | .adminRevokeApiKey keyId => keyId = auth.keyId
  | .adminInjectApiKey keyId _ _ token _ now =>
    Storable now ∧ (keyId = auth.keyId ∨ token = rawKey)
  | _ => False

/-- The keys that a request would issue. -/
def PlatformRequest.rawKeys : PlatformRequest → List String
  | .createApiKey _ _ _ rawToken _ => ["ak_" ++ rawToken]
  | .adminInjectApiKey _ _ _ token _ _ => [token]
  | _ => []

/-- No key that a request would issue has the hash of another. -/
def PlatformRequest.NoCollision (crypto : PlatformCrypto) (rawKey : String)
    (request : PlatformRequest) : Prop :=
  ∀ key ∈ request.rawKeys, crypto.sha256Hex key = crypto.sha256Hex rawKey → key = rawKey

/-- Accepted keys only depend on the table of keys. -/
theorem PlatformStore.acceptedKey_congr {Q : PlatformStore} (h : Q.apiKeys = P.apiKeys)
    (rawKey : String) : Q.acceptedKey crypto rawKey = P.acceptedKey crypto rawKey := by
  unfold PlatformStore.acceptedKey
  rw [h]

/-- A new user does not change the keys, -/
theorem PlatformStore.apiKeys_createUser {username password userToken salt : String}
    {now : UInt64} {created : PlatformStore × PublicUser}
    (h : P.createUser crypto username password userToken salt now = .ok created) :
    created.1.apiKeys = P.apiKeys := by
  obtain ⟨users, -, rfl, -⟩ := PlatformStore.createUser_ok h
  rfl

/-- nor does a new session, -/
theorem PlatformStore.apiKeys_createSession {userId token : String} {ttlSecs now : UInt64}
    {created : PlatformStore × String}
    (h : P.createSession userId ttlSecs token now = .ok created) :
    created.1.apiKeys = P.apiKeys := by
  rw [(PlatformStore.createSession_ok h).2]

/-- nor a signup, -/
theorem apiKeys_platformSignup (username password userToken salt token : String)
    (now sessionNow : UInt64) :
    (platformSignup crypto P username password userToken salt token now sessionNow).1.apiKeys =
      P.apiKeys := by
  unfold platformSignup
  cases hcreate : P.createUser crypto username password userToken salt now with
  | error e => rfl
  | ok created =>
    dsimp only
    have huser := PlatformStore.apiKeys_createUser hcreate
    cases hsession : created.1.createSession created.2.userId sessionTtlSeconds token sessionNow with
    | error e => exact huser
    | ok session => exact (PlatformStore.apiKeys_createSession hsession).trans huser

/-- nor a login. -/
theorem apiKeys_platformLogin (username password token : String) (now : UInt64) :
    (platformLogin crypto P username password token now).1.apiKeys = P.apiKeys := by
  unfold platformLogin
  cases hlogin : P.login crypto username password with
  | error e => rfl
  | ok user =>
    dsimp only
    cases hsession : P.createSession user.userId sessionTtlSeconds token now with
    | error e => rfl
    | ok session => exact PlatformStore.apiKeys_createSession hsession

/-- The use of a key changes nothing about who keys are accepted for. -/
theorem PlatformStore.acceptedKey_touchKey (keyId : String) (instant : ℕ) (now : UInt64)
    (rawKey : String) :
    (P.touchKey keyId instant now).1.acceptedKey crypto rawKey =
      P.acceptedKey crypto rawKey := by
  unfold PlatformStore.touchKey
  split
  · rfl
  dsimp only
  split
  · rfl
  refine Option.ext fun auth => ?_
  rw [PlatformStore.acceptedKey_eq_some, PlatformStore.acceptedKey_eq_some]
  -- The last use is no part of what the acceptance reads.
  have hsame : ∀ row : ApiKeyRow,
      ((ApiKeyRow.touch now).on (fun row => row.keyId = keyId) row).keyHash = row.keyHash ∧
        ((ApiKeyRow.touch now).on (fun row => row.keyId = keyId) row).disabled = row.disabled ∧
        ((ApiKeyRow.touch now).on (fun row => row.keyId = keyId) row).userId = row.userId ∧
        ((ApiKeyRow.touch now).on (fun row => row.keyId = keyId) row).keyId = row.keyId ∧
        ((ApiKeyRow.touch now).on (fun row => row.keyId = keyId) row).clusterId =
          row.clusterId := by
    intro row
    unfold Assignment.on
    split <;> exact ⟨rfl, rfl, rfl, rfl, rfl⟩
  constructor
  · rintro ⟨row, hrow, hhash, henabled, rfl⟩
    obtain ⟨old, hold, rfl⟩ := UniqueTable.mem_updateWhere.mp hrow
    obtain ⟨h1, h2, h3, h4, h5⟩ := hsame old
    exact ⟨old, hold, h1 ▸ hhash, h2 ▸ henabled, by rw [h3, h4, h5]⟩
  · rintro ⟨old, hold, hhash, henabled, rfl⟩
    obtain ⟨h1, h2, h3, h4, h5⟩ := hsame old
    exact ⟨_, UniqueTable.mem_updateWhere.mpr ⟨old, hold, rfl⟩, h1.trans hhash,
      h2.trans henabled, by rw [h3, h4, h5]⟩

/-- Keys that are disabled are not accepted any more. -/
theorem PlatformStore.acceptedKey_disableKeys (crypto : PlatformCrypto) (P : PlatformStore)
    {p : ApiKeyRow → Bool} {q : ApiKeyAuth → Prop}
    (hp : ∀ row : ApiKeyRow, p row = true ↔ q ⟨row.userId, row.keyId, row.clusterId⟩)
    (rawKey : String) (auth : ApiKeyAuth) :
    ((P.disableKeys p).toOption.getD P).acceptedKey crypto rawKey = some auth ↔
      P.acceptedKey crypto rawKey = some auth ∧ ¬ q auth := by
  unfold PlatformStore.disableKeys
  rw [PlatformStore.acceptedKey_eq_some (P := P)]
  -- Rows that are named are disabled, and the others stay.
  by_cases hany : P.apiKeys.rows.any p = true
  · rw [if_pos hany]
    change PlatformStore.acceptedKey crypto { P with apiKeys := _ } rawKey = some auth ↔ _
    rw [PlatformStore.acceptedKey_eq_some]
    constructor
    · rintro ⟨row, hrow, hhash, henabled, rfl⟩
      obtain ⟨old, hold, rfl⟩ := UniqueTable.mem_updateWhere.mp hrow
      unfold Assignment.on at hhash henabled ⊢
      by_cases hnamed : p old = true
      · rw [if_pos hnamed] at henabled
        exact absurd henabled (by simp [ApiKeyRow.disable])
      · rw [if_neg hnamed] at hhash henabled ⊢
        exact ⟨⟨old, hold, hhash, henabled, rfl⟩, fun hq => hnamed ((hp old).mpr hq)⟩
    · rintro ⟨⟨old, hold, hhash, henabled, rfl⟩, hq⟩
      have hnamed : p old ≠ true := fun hnamed => hq ((hp old).mp hnamed)
      refine ⟨old, UniqueTable.mem_updateWhere.mpr ⟨old, hold, ?_⟩, hhash, henabled, rfl⟩
      exact if_neg hnamed
  -- No row is named, so no accepted key is one of them.
  · rw [if_neg hany]
    change PlatformStore.acceptedKey crypto P rawKey = some auth ↔ _
    rw [PlatformStore.acceptedKey_eq_some]
    refine ⟨fun h => ⟨h, fun hq => ?_⟩, And.left⟩
    obtain ⟨row, hrow, -, -, rfl⟩ := h
    exact hany (List.any_eq_true.mpr ⟨row, hrow, (hp row).mpr hq⟩)

/-- A key that is created is accepted from then on. -/
theorem acceptedKey_platformCreateApiKey (P : PlatformStore) {rawKey : String} (auth : ApiKeyAuth)
    {rawToken : String} (bearer name keyToken : String) (now : UInt64)
    (hkey : crypto.sha256Hex ("ak_" ++ rawToken) = crypto.sha256Hex rawKey →
      "ak_" ++ rawToken = rawKey) :
    (platformCreateApiKey crypto P bearer name keyToken rawToken now).1.acceptedKey crypto rawKey =
        some auth ↔
      PlatformRequest.issues crypto P rawKey auth
          (.createApiKey bearer name keyToken rawToken now) ∨
        P.acceptedKey crypto rawKey = some auth := by
  simp only [PlatformRequest.issues, platformCreateApiKey, sessionUser]
  -- Without a session or with an error nothing is issued.
  cases hsession : P.resolveSession bearer now with
  | none => simp
  | some user =>
    simp only [Option.elim_some, Option.map_some]
    cases hcreate : P.createApiKeyForCluster crypto user.userId name none keyToken rawToken now with
    | error e => simp
    | ok created =>
      obtain ⟨apiKeys, hinsert, rfl⟩ := PlatformStore.createApiKeyForCluster_ok hcreate
      dsimp only
      rw [PlatformStore.acceptedKey_eq_some, PlatformStore.acceptedKey_eq_some]
      constructor
      -- The accepted row is an old one or the one that is inserted.
      · rintro ⟨row, hrow, hhash, henabled, rfl⟩
        rcases (UniqueTable.mem_of_insert hinsert).mp hrow with hold | rfl
        · exact .inr ⟨row, hold, hhash, henabled, rfl⟩
        · exact .inl ⟨congrArg Except.ok (hkey hhash), rfl, rfl, rfl⟩
      · rintro (⟨hraw, huser, hkeyId, hcluster⟩ | ⟨row, hold, hhash, henabled, rfl⟩)
        · refine ⟨_, (UniqueTable.mem_of_insert hinsert).mpr (.inr rfl), ?_, rfl, ?_⟩
          · exact congrArg crypto.sha256Hex (Except.ok.inj hraw)
          · obtain ⟨userId, keyId, clusterId⟩ := auth
            exact (ApiKeyAuth.mk.injEq ..).mpr ⟨(Option.some.inj huser).symm, hkeyId, hcluster⟩
        · exact ⟨row, (UniqueTable.mem_of_insert hinsert).mpr (.inl hold), hhash, henabled, rfl⟩

/-- A key that is injected takes the place of those that stand in its way. -/
theorem PlatformStore.acceptedKey_injectApiKey {rawKey : String} {auth : ApiKeyAuth}
    {keyId userId name token : String} {clusterId : Option String} {now : UInt64}
    (hkey : crypto.sha256Hex token = crypto.sha256Hex rawKey → token = rawKey) :
    ((P.injectApiKey crypto keyId userId name token clusterId now).toOption.getD P).acceptedKey
        crypto rawKey = some auth ↔
      PlatformRequest.issues crypto P rawKey auth
          (.adminInjectApiKey keyId userId name token clusterId now) ∨
        P.acceptedKey crypto rawKey = some auth ∧
          ¬ PlatformRequest.withdraws P rawKey auth
            (.adminInjectApiKey keyId userId name token clusterId now) := by
  simp only [PlatformRequest.issues, PlatformRequest.withdraws, PlatformStore.injectApiKey]
  by_cases hstorable : Storable now
  · rw [if_neg (not_not.mpr hstorable)]
    change PlatformStore.acceptedKey crypto { P with apiKeys := _ } rawKey = some auth ↔ _
    rw [PlatformStore.acceptedKey_eq_some, PlatformStore.acceptedKey_eq_some]
    constructor
    · rintro ⟨row, hrow, hhash, henabled, rfl⟩
      -- The row replaces those with its identifier and those with its hash.
      rcases UniqueTable.mem_insertOrReplace.mp hrow with ⟨hold, hid, hother⟩ | rfl
      · refine .inr ⟨⟨row, hold, hhash, henabled, rfl⟩, ?_⟩
        rintro ⟨-, rfl | rfl⟩
        · exact hid rfl
        · exact hother hhash
      · exact .inl ⟨hstorable, hkey hhash, rfl⟩
    · rintro (⟨-, rfl, rfl⟩ | ⟨⟨row, hold, hhash, henabled, rfl⟩, hkept⟩)
      · exact ⟨_, UniqueTable.mem_insertOrReplace.mpr (.inr rfl), rfl, rfl, rfl⟩
      · refine ⟨row, UniqueTable.mem_insertOrReplace.mpr (.inl ⟨hold, ?_, ?_⟩), hhash, henabled, rfl⟩
        · exact fun hid => hkept ⟨hstorable, .inl hid.symm⟩
        · exact fun hother => hkept ⟨hstorable, .inr (hkey (hother.symm.trans hhash))⟩
  -- A time that cannot be stored ends the request before it writes.
  · rw [if_pos hstorable]
    change P.acceptedKey crypto rawKey = some auth ↔ _
    refine ⟨fun h => .inr ⟨h, fun hw => hstorable hw.1⟩, ?_⟩
    rintro (⟨h, -⟩ | ⟨h, -⟩)
    · exact absurd h hstorable
    · exact h

/-- A key that its user revokes is not accepted any more. -/
theorem acceptedKey_platformRevokeApiKey {rawKey : String} {auth : ApiKeyAuth}
    {bearer keyId : String} {now : UInt64} :
    (platformRevokeApiKey P bearer keyId now).1.acceptedKey crypto rawKey = some auth ↔
      P.acceptedKey crypto rawKey = some auth ∧
        ¬ PlatformRequest.withdraws P rawKey auth (.revokeApiKey bearer keyId now) := by
  simp only [PlatformRequest.withdraws, platformRevokeApiKey, sessionUser]
  cases hsession : P.resolveSession bearer now with
  | none => simp
  | some user =>
    simp only [Option.elim_some, Option.map_some, Option.some.injEq]
    have hdisable := PlatformStore.acceptedKey_disableKeys crypto P
      (p := fun row => row.keyId = keyId && row.userId = user.userId)
      (q := fun auth => keyId = auth.keyId ∧ user.userId = auth.userId)
      (fun row => by
        rw [Bool.and_eq_true, decide_eq_true_eq, decide_eq_true_eq]
        exact and_congr eq_comm eq_comm) rawKey auth
    rw [← hdisable]
    unfold PlatformStore.revokeApiKey
    cases P.disableKeys fun row => row.keyId = keyId && row.userId = user.userId with
    | error e => rfl
    | ok revoked => rfl

/-- What a request does to who a key is accepted for. -/
theorem PlatformStore.acceptedKey_step {rawKey : String} {auth : ApiKeyAuth}
    {request : PlatformRequest} (hkey : request.NoCollision crypto rawKey) :
    (P.step crypto request).acceptedKey crypto rawKey = some auth ↔
      request.issues crypto P rawKey auth ∨
        P.acceptedKey crypto rawKey = some auth ∧ ¬ request.withdraws P rawKey auth := by
  -- A request that leaves the rows of the keys leaves what is accepted.
  have hframe : ∀ Q : PlatformStore, Q.apiKeys = P.apiKeys →
      (Q.acceptedKey crypto rawKey = some auth ↔
        False ∨ P.acceptedKey crypto rawKey = some auth ∧ ¬ False) := by
    intro Q hQ
    rw [PlatformStore.acceptedKey_congr hQ, not_false_eq_true, and_true, false_or]
  cases request with
  | signup username password userToken salt token now sessionNow =>
    simp only [PlatformStore.step]
    exact hframe _ (apiKeys_platformSignup username password userToken salt token now sessionNow)
  | login username password token now =>
    simp only [PlatformStore.step]
    exact hframe _ (apiKeys_platformLogin username password token now)
  | logout bearer => exact hframe _ rfl
  | createApiKey bearer name keyToken rawToken now =>
    have hcreate := acceptedKey_platformCreateApiKey P auth bearer name keyToken now
      (hkey _ List.mem_cons_self)
    exact hcreate.trans (or_congr_right (and_iff_left not_false).symm)
  | revokeApiKey bearer keyId now =>
    exact acceptedKey_platformRevokeApiKey.trans (or_iff_right not_false).symm
  | adminInjectApiKey keyId userId name token clusterId now =>
    exact PlatformStore.acceptedKey_injectApiKey (hkey _ List.mem_cons_self)
  | adminRevokeApiKey keyId =>
    have hdisable := PlatformStore.acceptedKey_disableKeys crypto P
      (p := fun row => row.keyId = keyId) (q := fun auth => keyId = auth.keyId)
      (fun row => decide_eq_true_iff.trans eq_comm) rawKey auth
    exact hdisable.trans (or_iff_right not_false).symm
  | authenticate key instant now =>
    refine Iff.trans (Eq.congr_left ?_) (hframe P rfl)
    change (P.authenticateApiKey crypto key instant now).1.acceptedKey crypto rawKey = _
    unfold PlatformStore.authenticateApiKey
    cases P.acceptedKey crypto key with
    | none => rfl
    | some found => exact PlatformStore.acceptedKey_touchKey ..
  | purge now =>
    refine hframe _ ?_
    change (P.purgeExpiredSessions now).apiKeys = P.apiKeys
    unfold PlatformStore.purgeExpiredSessions
    split <;> rfl
  | recordUsage userId endpoint count now =>
    refine hframe _ ?_
    change (P.recordUsageN userId endpoint count now).1.apiKeys = P.apiKeys
    unfold PlatformStore.recordUsageN
    dsimp only
    split_ifs <;> rfl
  | updateProfile update => exact hframe _ rfl

/-! ## Runs -/

/-- After a run a key is accepted for a user exactly if a request has issued it to the user, and no
later one has withdrawn it. -/
theorem PlatformStore.acceptedKey_after {requests : List PlatformRequest} {rawKey : String}
    (auth : ApiKeyAuth) (hkey : ∀ request ∈ requests, request.NoCollision crypto rawKey) :
    (PlatformStore.after crypto requests).acceptedKey crypto rawKey = some auth ↔
      Since (PlatformStore.step crypto)
        (fun P request => request.issues crypto P rawKey auth)
        (fun P request => request.withdraws P rawKey auth) PlatformStore.new requests := by
  have hrun : EachStep (PlatformStore.step crypto)
      (fun _ request => request.NoCollision crypto rawKey) PlatformStore.new requests :=
    fun before request after hsplit => hkey request (by rw [hsplit]; simp)
  have hnot : PlatformStore.new.acceptedKey crypto rawKey ≠ some auth := by
    rw [Ne, PlatformStore.acceptedKey_eq_some]
    rintro ⟨row, hrow, -⟩
    exact absurd hrow List.not_mem_nil
  exact foldl_iff_since (I := fun _ => True) (P := fun P => P.acceptedKey crypto rawKey = some auth)
    hrun (fun _ _ _ _ => trivial) (fun _ _ _ hkey => PlatformStore.acceptedKey_step hkey) trivial
    hnot

/-- A key that is authenticated is accepted. -/
theorem PlatformStore.acceptedKey_of_authenticate {rawKey : String} {auth : ApiKeyAuth}
    {instant : ℕ} {now : UInt64}
    (h : (P.authenticateApiKey crypto rawKey instant now).2 = .ok (some auth)) :
    P.acceptedKey crypto rawKey = some auth := by
  unfold PlatformStore.authenticateApiKey at h
  cases haccepted : P.acceptedKey crypto rawKey with
  | none => rw [haccepted] at h; exact absurd h (by simp)
  | some found =>
    rw [haccepted] at h
    dsimp only at h
    cases htouch : (P.touchKey found.keyId instant now).2 with
    | error e => rw [htouch] at h; exact absurd h (by simp [Except.map])
    | ok done => rw [htouch] at h; exact Except.ok.inj h

/-- In every run a key is accepted for a user exactly if a request has issued it to the user, and no
later one has withdrawn it. -/
theorem authenticate_after (crypto : PlatformCrypto) (requests : List PlatformRequest)
    (rawKey : String) (auth : ApiKeyAuth) (instant : ℕ) (now : UInt64) (hnow : Storable now)
    (hkey : ∀ request ∈ requests, request.NoCollision crypto rawKey) :
    ((PlatformStore.after crypto requests).authenticateApiKey crypto rawKey instant now).2 =
        .ok (some auth) ↔
      Since (PlatformStore.step crypto)
        (fun P request => request.issues crypto P rawKey auth)
        (fun P request => request.withdraws P rawKey auth) PlatformStore.new requests := by
  rw [← PlatformStore.acceptedKey_after auth hkey]
  refine ⟨PlatformStore.acceptedKey_of_authenticate, fun haccepted => ?_⟩
  generalize PlatformStore.after crypto requests = P at haccepted ⊢
  have htouch : (P.touchKey auth.keyId instant now).2 = .ok () := by
    unfold PlatformStore.touchKey
    dsimp only
    split_ifs
    · rfl
    · rfl
  unfold PlatformStore.authenticateApiKey
  rw [haccepted]
  dsimp only
  rw [htouch]
  rfl

/-- Of two keys the first is revoked, and the second is still accepted. -/
theorem authenticate_after_revoked :
    Since (PlatformStore.step .plain)
      (fun P request => request.issues .plain P "ak_two" ⟨"usr_ada", "key_2", some "c"⟩)
      (fun P request => request.withdraws P "ak_two" ⟨"usr_ada", "key_2", some "c"⟩)
      PlatformStore.new
      [.adminInjectApiKey "key_1" "usr_ada" "first" "ak_one" none 10,
        .adminInjectApiKey "key_2" "usr_ada" "second" "ak_two" (some "c") 20,
        .adminRevokeApiKey "key_1"] :=
  (authenticate_after .plain
    [.adminInjectApiKey "key_1" "usr_ada" "first" "ak_one" none 10,
      .adminInjectApiKey "key_2" "usr_ada" "second" "ak_two" (some "c") 20,
      .adminRevokeApiKey "key_1"] "ak_two" ⟨"usr_ada", "key_2", some "c"⟩ 0 30 (by decide)
    (fun _ _ _ _ hsame => hsame)).mp rfl

end Tellodb
