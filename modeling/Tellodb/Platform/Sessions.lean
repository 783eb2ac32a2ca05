import Tellodb.Platform.Keys

/-!
# Sessions and logins

Sessions are rows with an expiry, which a logout deletes and the purge deletes in bulk, and a
session is resolved by joining its user. Over a run nothing of this shows: a token stands for the
user it was given to for thirty days, until somebody logs out with it (`resolveSession_after`), and
a user name and a password log in as the user who signed up with them (`login_after`). -/

namespace Tellodb

open Relational

variable {crypto : PlatformCrypto} {P : PlatformStore}

/-! ## Sessions -/

/-- When a session that is created at some time expires. -/
def sessionExpiry (createdAtMs : UInt64) : UInt64 :=
  saturatingAdd createdAtMs (saturatingMul sessionTtlSeconds 1000).toNat

/-- The token that a request is answered with, the user it is for, and when. -/
def PlatformRequest.grants (crypto : PlatformCrypto) (P : PlatformStore) :
    PlatformRequest → Option (String × PublicUser × UInt64)
  | .signup username password userToken salt token now sessionNow =>
    (platformSignup crypto P username password userToken salt token now
      sessionNow).2.toOption.map fun granted => (granted.1, granted.2, sessionNow)
  | .login username password token now =>
    (platformLogin crypto P username password token now).2.toOption.map
      fun granted => (granted.1, granted.2, now)
  | _ => none

/-- The requests that purge do so up to a time at most. -/
def PlatformRequest.PurgesBy (t : UInt64) : PlatformRequest → Prop
  | .purge now => now ≤ t
  | _ => True

/-- A session is stored, and its user is. -/
def PlatformStore.HasSession (P : PlatformStore) (token : String) (user : PublicUser)
    (createdAtMs : UInt64) : Prop :=
  P.sessions.find? token = some ⟨token, user.userId, createdAtMs, sessionExpiry createdAtMs⟩ ∧
    (P.users.find? user.userId).map UserRecord.publicUser = some user

/-- The sessions expire in time and are for users that are there. -/
structure PlatformStore.SessionsValid (P : PlatformStore) : Prop where
  expiry : ∀ row ∈ P.sessions.rows, row.expiresAtMs = sessionExpiry row.createdAtMs
  user : ∀ row ∈ P.sessions.rows, (P.users.find? row.userId).isSome

/-- A session that is created for a user is there, next to the others. -/
theorem PlatformStore.hasSession_createSession (user : PublicUser) {token : String}
    {now : UInt64} {created : PlatformStore × String}
    (huser : (P.users.find? user.userId).map UserRecord.publicUser = some user)
    (h : P.createSession user.userId sessionTtlSeconds token now = .ok created)
    (t : String) (u : PublicUser) (g : UInt64) :
    created.1.HasSession t u g ↔
      (created.2, user, now) = (t, u, g) ∨ P.HasSession t u g := by
  obtain ⟨hnone, rfl⟩ := PlatformStore.createSession_ok h
  have hfind := Table.find?_of_rows_append
    (Table.insertOrIgnore_rows (t := P.sessions)
      (a := ⟨"sess_" ++ token, user.userId, now, sessionExpiry now⟩)
        (Table.find?_eq_none.mp hnone)) t
  unfold PlatformStore.HasSession
  change (P.sessions.insertOrIgnore ⟨"sess_" ++ token, user.userId, now, sessionExpiry now⟩).find?
    t = _ ∧ _ ↔ _
  rw [hfind]
  -- The new session is under its own token only.
  by_cases ht : "sess_" ++ token = t
  · rw [if_pos ht, Option.some.injEq, SessionRow.mk.injEq]
    subst ht
    rw [hnone]
    constructor
    · rintro ⟨⟨-, hid, rfl, -⟩, hu⟩
      rw [hid, hu, Option.some.injEq] at huser
      exact .inl (by rw [huser])
    · rintro (hgranted | ⟨habsurd, -⟩)
      · obtain ⟨-, hgranted⟩ := Prod.mk.inj hgranted
        obtain ⟨rfl, rfl⟩ := Prod.mk.inj hgranted
        exact ⟨⟨rfl, rfl, rfl, rfl⟩, huser⟩
      · exact absurd habsurd (by simp)
  · rw [if_neg ht]
    refine ⟨.inr, ?_⟩
    rintro (hgranted | hold)
    · exact absurd (Prod.mk.inj hgranted).1 ht
    · exact hold

/-- A user more changes no session. -/
theorem PlatformStore.SessionsValid.hasSession_insert (hP : P.SessionsValid) {user : UserRecord}
    {users : UniqueTable UserRecord.userId UserRecord.username}
    (h : P.users.insert user = some users) (t : String) (u : PublicUser) (g : UInt64) :
    ({ P with users } : PlatformStore).HasSession t u g ↔ P.HasSession t u g := by
  unfold PlatformStore.HasSession
  dsimp only
  refine and_congr_right fun hsession => ?_
  -- The user of the session is there, so it is not the new one.
  have hthere := hP.user _ (Table.find?_eq_some.mp hsession).1
  rw [UniqueTable.find?_of_insert h]
  by_cases hid : user.userId = u.userId
  · obtain ⟨old, hold⟩ := Option.isSome_iff_exists.mp hthere
    obtain ⟨hmem, holdId⟩ := Table.find?_eq_some.mp hold
    exact absurd (holdId.trans hid.symm) ((UniqueTable.insert_eq_some h).1 old hmem).1
  · rw [if_neg hid]

/-- A new user keeps the sessions valid. -/
theorem PlatformStore.SessionsValid.insert (hP : P.SessionsValid) {user : UserRecord}
    {users : UniqueTable UserRecord.userId UserRecord.username}
    (h : P.users.insert user = some users) : ({ P with users } : PlatformStore).SessionsValid := by
  refine ⟨hP.expiry, fun row hrow => ?_⟩
  dsimp only
  rw [UniqueTable.find?_of_insert h]
  by_cases hid : user.userId = row.userId
  · rw [if_pos hid]
    rfl
  · rw [if_neg hid]
    exact hP.user row hrow

/-- So does a new session of a user that exists, -/
theorem PlatformStore.SessionsValid.createSession (hP : P.SessionsValid) {userId token : String}
    {now : UInt64} {created : PlatformStore × String} (huser : (P.users.find? userId).isSome)
    (h : P.createSession userId sessionTtlSeconds token now = .ok created) :
    created.1.SessionsValid := by
  obtain ⟨hnone, rfl⟩ := PlatformStore.createSession_ok h
  have hrows := Table.insertOrIgnore_rows (t := P.sessions)
    (a := ⟨"sess_" ++ token, userId, now, sessionExpiry now⟩) (Table.find?_eq_none.mp hnone)
  have hmem : ∀ row ∈ (P.sessions.insertOrIgnore
      ⟨"sess_" ++ token, userId, now, sessionExpiry now⟩).rows, row ∈ P.sessions.rows ∨
        row = ⟨"sess_" ++ token, userId, now, sessionExpiry now⟩ := by
    intro row hrow
    rw [hrows, List.mem_append, List.mem_singleton] at hrow
    exact hrow
  refine ⟨fun row hrow => ?_, fun row hrow => ?_⟩
  · rcases hmem row hrow with hold | rfl
    · exact hP.expiry row hold
    · rfl
  · rcases hmem row hrow with hold | rfl
    · exact hP.user row hold
    · exact huser

/-- and the removal of sessions. -/
theorem PlatformStore.SessionsValid.deleteWhere (hP : P.SessionsValid) (p : SessionRow → Bool) :
    ({ P with sessions := P.sessions.deleteWhere p } : PlatformStore).SessionsValid :=
  ⟨fun row hrow => hP.expiry row (Table.mem_deleteWhere.mp hrow).1,
    fun row hrow => hP.user row (Table.mem_deleteWhere.mp hrow).1⟩

/-- A login succeeds for a user who is there, with the password. -/
theorem PlatformStore.login_eq_ok {username password : String} {user : PublicUser} :
    P.login crypto username password = .ok user ↔
      utf8Len (normalizeUsername username).toList ≤ maxUsernameLength ∧
        utf8Len password.toList ≤ maxPasswordLength ∧
        ∃ row, P.users.findOther? (normalizeUsername username) = some row ∧
          crypto.verifyPassword row.passwordHash password = true ∧ row.publicUser = user := by
  unfold PlatformStore.login
  dsimp only
  -- A name or a password that is too long is refused before the rows are read.
  by_cases hname : utf8Len (normalizeUsername username).toList > maxUsernameLength
  · rw [if_pos hname]
    exact iff_of_false (by simp) fun h => absurd h.1 (Nat.not_le_of_lt hname)
  by_cases hpassword : utf8Len password.toList > maxPasswordLength
  · rw [if_neg hname, if_pos hpassword]
    exact iff_of_false (by simp) fun h => absurd h.2.1 (Nat.not_le_of_lt hpassword)
  rw [if_neg hname, if_neg hpassword, and_iff_right (Nat.le_of_not_lt hname),
    and_iff_right (Nat.le_of_not_lt hpassword)]
  cases P.users.findOther? (normalizeUsername username) with
  | none => simp
  | some row =>
    dsimp only
    by_cases hverify : crypto.verifyPassword row.passwordHash password = true
    · rw [if_pos hverify, Except.ok.injEq]
      exact ⟨fun h => ⟨row, rfl, hverify, h⟩, fun ⟨_, hrow, _, h⟩ => Option.some.inj hrow ▸ h⟩
    · rw [if_neg hverify]
      refine iff_of_false (by simp) ?_
      rintro ⟨found, hfound, hfoundVerify, -⟩
      exact hverify (Option.some.inj hfound ▸ hfoundVerify)

/-- Who logs in is a user. -/
theorem PlatformStore.find?_of_login {username password : String} {user : PublicUser}
    (h : P.login crypto username password = .ok user) :
    (P.users.find? user.userId).map UserRecord.publicUser = some user := by
  obtain ⟨-, -, row, hrow, -, rfl⟩ := PlatformStore.login_eq_ok.mp h
  have hfind := Table.find?_eq_some.mpr ⟨(UniqueTable.findOther?_eq_some.mp hrow).1, rfl⟩
  exact (congrArg (Option.map UserRecord.publicUser) hfind)

/-- A signup gives a session to the user it creates, and changes no other. -/
theorem PlatformStore.SessionsValid.platformSignup (crypto : PlatformCrypto)
    (hP : P.SessionsValid)
    (username password userToken salt token : String) (now sessionNow : UInt64) :
    let signup := platformSignup crypto P username password userToken salt token now sessionNow
    signup.1.SessionsValid ∧ ∀ t u g, signup.1.HasSession t u g ↔
      (signup.2.toOption.map fun granted => (granted.1, granted.2, sessionNow)) = some (t, u, g) ∨
        P.HasSession t u g := by
  unfold Tellodb.platformSignup
  cases hcreate : P.createUser crypto username password userToken salt now with
  | error e => exact ⟨hP, fun t u g => (or_iff_right (by simp [Except.toOption])).symm⟩
  | ok created =>
    obtain ⟨users, hinsert, rfl, -⟩ := PlatformStore.createUser_ok hcreate
    dsimp only
    have hvalid := hP.insert hinsert
    have hsame := hP.hasSession_insert hinsert
    have huser := UniqueTable.find?_of_insert hinsert ("usr_" ++ userToken)
    rw [if_pos rfl] at huser
    -- The user is there even if the session cannot be made.
    cases hsession : PlatformStore.createSession { P with users } ("usr_" ++ userToken)
        sessionTtlSeconds token sessionNow with
    | error e =>
      exact ⟨hvalid, fun t u g => (hsame t u g).trans (or_iff_right (by simp [Except.toOption])).symm⟩
    | ok session =>
      refine ⟨hvalid.createSession (Option.isSome_of_eq_some huser) hsession, fun t u g => ?_⟩
      have hgrant := PlatformStore.hasSession_createSession
        ⟨"usr_" ++ userToken, normalizeUsername username, now⟩
        (congrArg (Option.map UserRecord.publicUser) huser) hsession t u g
      exact hgrant.trans (or_congr (Option.some_inj).symm (hsame t u g))

/-- A login gives a session to the user, and changes no other. -/
theorem PlatformStore.SessionsValid.platformLogin (crypto : PlatformCrypto)
    (hP : P.SessionsValid)
    (username password token : String) (now : UInt64) :
    let login := platformLogin crypto P username password token now
    login.1.SessionsValid ∧ ∀ t u g, login.1.HasSession t u g ↔
      (login.2.toOption.map fun granted => (granted.1, granted.2, now)) = some (t, u, g) ∨
        P.HasSession t u g := by
  unfold Tellodb.platformLogin
  cases hlogin : P.login crypto username password with
  | error e => exact ⟨hP, fun t u g => (or_iff_right (by simp [Except.toOption])).symm⟩
  | ok user =>
    dsimp only
    have huser := PlatformStore.find?_of_login hlogin
    cases hsession : P.createSession user.userId sessionTtlSeconds token now with
    | error e => exact ⟨hP, fun t u g => (or_iff_right (by simp [Except.toOption])).symm⟩
    | ok session =>
      have hthere : (P.users.find? user.userId).isSome := by
        rw [← Option.isSome_map (f := UserRecord.publicUser), huser]
        rfl
      refine ⟨hP.createSession hthere hsession, fun t u g => ?_⟩
      exact (PlatformStore.hasSession_createSession user huser hsession t u g).trans
        (or_congr_left (Option.some_inj).symm)

/-- A request that is about accounts. -/
def PlatformRequest.isAccount : PlatformRequest → Bool
  | .signup .. => true
  | .login .. => true
  | .logout .. => true
  | .purge .. => true
  | _ => false

/-- Other requests leave users and sessions alone. -/
theorem PlatformStore.accounts_step (crypto : PlatformCrypto) (P : PlatformStore)
    {request : PlatformRequest} (h : request.isAccount = false) :
    (P.step crypto request).sessions = P.sessions ∧ (P.step crypto request).users = P.users := by
  -- The cases are the requests that are not about accounts.
  cases request with
  | signup => cases h
  | login => cases h
  | logout => cases h
  | purge => cases h
  | createApiKey bearer name keyToken rawToken now =>
    simp only [PlatformStore.step, platformCreateApiKey]
    cases sessionUser P bearer now with
    | error e => exact ⟨rfl, rfl⟩
    | ok user =>
      dsimp only
      cases hcreate : P.createApiKeyForCluster crypto user.userId name none keyToken rawToken
          now with
      | error e => exact ⟨rfl, rfl⟩
      | ok created =>
        obtain ⟨apiKeys, -, rfl⟩ := PlatformStore.createApiKeyForCluster_ok hcreate
        exact ⟨rfl, rfl⟩
  | revokeApiKey bearer keyId now =>
    simp only [PlatformStore.step, platformRevokeApiKey]
    cases sessionUser P bearer now with
    | error e => exact ⟨rfl, rfl⟩
    | ok user =>
      simp only [PlatformStore.revokeApiKey, PlatformStore.disableKeys]
      split_ifs <;> exact ⟨rfl, rfl⟩
  | adminInjectApiKey keyId userId name token clusterId now =>
    simp only [PlatformStore.step, PlatformStore.injectApiKey]
    split_ifs <;> exact ⟨rfl, rfl⟩
  | adminRevokeApiKey keyId =>
    simp only [PlatformStore.step, PlatformStore.adminRevokeApiKey, PlatformStore.disableKeys]
    split_ifs <;> exact ⟨rfl, rfl⟩
  | authenticate rawKey instant now =>
    simp only [PlatformStore.step, PlatformStore.authenticateApiKey]
    cases P.acceptedKey crypto rawKey with
    | none => exact ⟨rfl, rfl⟩
    | some auth =>
      simp only [PlatformStore.touchKey]
      split_ifs <;> exact ⟨rfl, rfl⟩
  | recordUsage userId endpoint count now =>
    simp only [PlatformStore.step, PlatformStore.recordUsageN]
    split_ifs <;> exact ⟨rfl, rfl⟩
  | updateProfile update => exact ⟨rfl, rfl⟩

/-- Whether the sessions are valid depends on the sessions and the users only. -/
theorem PlatformStore.SessionsValid.congr {Q : PlatformStore} (hP : P.SessionsValid)
    (h : Q.sessions = P.sessions ∧ Q.users = P.users) : Q.SessionsValid := by
  obtain ⟨hsessions, husers⟩ := h
  exact ⟨by rw [hsessions]; exact hP.expiry, by rw [hsessions, husers]; exact hP.user⟩

/-- A delete that spares a session keeps it. -/
theorem PlatformStore.hasSession_deleteWhere {p : SessionRow → Bool} {t : String} {u : PublicUser}
    {g : UInt64} (hp : p ⟨t, u.userId, g, sessionExpiry g⟩ = false) :
    ({ P with sessions := P.sessions.deleteWhere p } : PlatformStore).HasSession t u g ↔
      P.HasSession t u g := by
  unfold PlatformStore.HasSession
  dsimp only
  rw [Table.find?_eq_some, Table.find?_eq_some, Table.mem_deleteWhere, and_iff_left hp]

/-- What a request does to a session that is not expired at the time of the last purge. -/
theorem PlatformStore.SessionsValid.step (hP : P.SessionsValid) {request : PlatformRequest}
    {t : UInt64} (hpurge : request.PurgesBy t) :
    (P.step crypto request).SessionsValid ∧ ∀ token user g, t < sessionExpiry g →
      ((P.step crypto request).HasSession token user g ↔
        request.grants crypto P = some (token, user, g) ∨
          P.HasSession token user g ∧ ¬ request = .logout token) := by
  -- Requests that are not about accounts change neither users nor sessions.
  by_cases haccount : request.isAccount = false
  · have hsame := PlatformStore.accounts_step crypto P haccount
    refine ⟨hP.congr hsame, fun token user g _ => ?_⟩
    unfold PlatformStore.HasSession
    rw [hsame.1, hsame.2]
    cases request with
    | signup => cases haccount
    | login => cases haccount
    | logout => cases haccount
    | purge => cases haccount
    | _ => simp [PlatformRequest.grants]
  cases request with
  | signup username password userToken salt newToken now sessionNow =>
    obtain ⟨hvalid, hgrant⟩ := hP.platformSignup crypto username password userToken salt
      newToken now sessionNow
    refine ⟨hvalid, fun token user g _ => (hgrant token user g).trans (or_congr_right ?_)⟩
    exact (and_iff_left (by simp)).symm
  | login username password newToken now =>
    obtain ⟨hvalid, hgrant⟩ := hP.platformLogin crypto username password newToken now
    refine ⟨hvalid, fun token user g _ => (hgrant token user g).trans (or_congr_right ?_)⟩
    exact (and_iff_left (by simp)).symm
  | logout bearer =>
    refine ⟨hP.deleteWhere _, fun token user g _ => ?_⟩
    have hgrants : (PlatformRequest.logout bearer).grants crypto P = none := rfl
    rw [PlatformRequest.logout.injEq, hgrants]
    change PlatformStore.HasSession { P with sessions := _ } token user g ↔ _
    -- The session with the token is gone, and the others are kept.
    by_cases htoken : bearer = token
    · subst htoken
      refine iff_of_false ?_ (by simp)
      rintro ⟨hfind, -⟩
      have hkept := (Table.mem_deleteWhere.mp (Table.find?_eq_some.mp hfind).1).2
      exact absurd hkept (by simp)
    · rw [PlatformStore.hasSession_deleteWhere (by simpa using fun h => htoken h.symm)]
      simp [htoken]
  | purge now =>
    change (P.purgeExpiredSessions now).SessionsValid ∧ _
    have hstep : P.step crypto (.purge now) = P.purgeExpiredSessions now := rfl
    rw [hstep]
    unfold PlatformStore.purgeExpiredSessions
    split
    · exact ⟨hP, fun token user g _ => by simp [PlatformRequest.grants]⟩
    · refine ⟨hP.deleteWhere _, fun token user g hlive => ?_⟩
      have hle : now ≤ t := hpurge
      -- The session lives at the time of the question, so it was not due at the purge.
      have hlater : ¬ sessionExpiry g ≤ now := by
        rw [UInt64.not_le]
        exact UInt64.lt_of_le_of_lt hle hlive
      have hkept := PlatformStore.hasSession_deleteWhere (P := P)
        (p := fun session => session.expiresAtMs ≤ now) (t := token) (u := user) (g := g)
        (decide_eq_false hlater)
      rw [hkept]
      simp [PlatformRequest.grants]
  | _ => exact absurd rfl haccount

/-- In every run, as long as no purge has been ahead of the clock, a token stands for a user exactly
if it was given to the user by a signup or a login less than thirty days ago, and nobody has logged
out with it since. -/
theorem resolveSession_after (crypto : PlatformCrypto) (requests : List PlatformRequest)
    (token : String) (user : PublicUser) (t : UInt64)
    (hclock : ∀ request ∈ requests, request.PurgesBy t) :
    (PlatformStore.after crypto requests).resolveSession token t = some user ↔
      ∃ g, t < sessionExpiry g ∧ Since (PlatformStore.step crypto)
        (fun P request => request.grants crypto P = some (token, user, g))
        (fun _ request => request = .logout token) PlatformStore.new requests := by
  have hrun : EachStep (PlatformStore.step crypto) (fun _ request => request.PurgesBy t)
      PlatformStore.new requests :=
    fun before request after hsplit => hclock request (by rw [hsplit]; simp)
  have hnew : PlatformStore.new.SessionsValid :=
    ⟨fun row hrow => absurd hrow List.not_mem_nil, fun row hrow => absurd hrow List.not_mem_nil⟩
  have hvalid := hrun.invariant (fun _ _ hP hpurge => (hP.step hpurge).1) hnew
  -- A session is there if it was granted and there was no logout since then.
  have hsince : ∀ g, t < sessionExpiry g →
      ((PlatformStore.after crypto requests).HasSession token user g ↔
        Since (PlatformStore.step crypto)
          (fun P request => request.grants crypto P = some (token, user, g))
          (fun _ request => request = .logout token) PlatformStore.new requests) := by
    intro g hlive
    refine foldl_iff_since hrun (I := PlatformStore.SessionsValid)
      (P := fun P => P.HasSession token user g) (fun _ _ hP hpurge => (hP.step hpurge).1)
      (fun _ _ hP hpurge => (hP.step hpurge).2 token user g hlive) hnew ?_
    rintro ⟨hfind, -⟩
    exact absurd (Table.find?_eq_some.mp hfind).1 List.not_mem_nil
  -- The request resolves if a session is there that has not expired.
  have hiff : (PlatformStore.after crypto requests).resolveSession token t = some user ↔
      ∃ g, t < sessionExpiry g ∧
        (PlatformStore.after crypto requests).HasSession token user g := by
    change (PlatformStore.after crypto requests).SessionsValid at hvalid
    generalize PlatformStore.after crypto requests = P at hvalid
    unfold PlatformStore.resolveSession PlatformStore.HasSession
    constructor
    · intro h
      obtain ⟨row, hrow, h⟩ := Option.bind_eq_some_iff.mp h
      obtain ⟨stored, hstored, h⟩ := Option.bind_eq_some_iff.mp h
      obtain ⟨hmem, htoken⟩ := Table.find?_eq_some.mp hrow
      -- When it was made and when it ends are tied together.
      have hexpiry := hvalid.expiry row hmem
      by_cases hlive : t ≥ row.expiresAtMs
      · rw [if_pos hlive] at h
        exact absurd h (by simp)
      · rw [if_neg hlive, Option.some.injEq] at h
        have hid : stored.userId = row.userId := (Table.find?_eq_some.mp hstored).2
        have huserId : user.userId = row.userId := by rw [← h, ← hid]; rfl
        refine ⟨row.createdAtMs, ?_, ?_, ?_⟩
        · rw [← hexpiry]
          exact UInt64.not_le.mp hlive
        · rw [hrow, huserId, ← hexpiry, ← htoken]
        · rw [huserId, hstored, Option.map_some, h]
    · rintro ⟨g, hlive, hfind, huser⟩
      obtain ⟨stored, hstored, hpublic⟩ := Option.map_eq_some_iff.mp huser
      rw [hfind, Option.bind_some, hstored, Option.bind_some, hpublic]
      exact if_neg (UInt64.not_le.mpr hlive)
  rw [hiff]
  exact exists_congr fun g => and_congr_right fun hlive => hsince g hlive

/-- A token is good until somebody logs out with it, also after a purge. -/
theorem resolveSession_after_purge :
    ∃ g, 2000 < sessionExpiry g ∧ Since (PlatformStore.step .plain)
      (fun P request => request.grants .plain P =
        some ("sess_b", ⟨"usr_1", "ada", 500⟩, g))
      (fun _ request => request = .logout "sess_b") PlatformStore.new
      [.signup " Ada " "password" "1" "salt" "a" 500 500, .login "ADA" "password" "b" 1000,
        .logout "sess_a", .purge 1500] :=
  (resolveSession_after .plain
    [.signup " Ada " "password" "1" "salt" "a" 500 500, .login "ADA" "password" "b" 1000,
      .logout "sess_a", .purge 1500] "sess_b" ⟨"usr_1", "ada", 500⟩ 2000 (by
        intro request hrequest
        simp only [List.mem_cons, List.not_mem_nil, or_false] at hrequest
        rcases hrequest with rfl | rfl | rfl | rfl
        · trivial
        · trivial
        · trivial
        · exact (by decide : (1500 : UInt64) ≤ 2000))).mp (by decide +kernel)

/-! ## Logins -/

/-- A request registers a user under a name and a password. -/
def PlatformRequest.registers (crypto : PlatformCrypto) (P : PlatformStore)
    (name password : String) (user : PublicUser) : PlatformRequest → Prop
  | .signup username chosen userToken salt _ now _ =>
    normalizeUsername username = name ∧ chosen = password ∧
      (P.createUser crypto username chosen userToken salt now).map Prod.snd = .ok user
  | _ => False

/-- A login does not change the users. -/
theorem users_platformLogin (username password token : String) (now : UInt64) :
    (platformLogin crypto P username password token now).1.users = P.users := by
  unfold platformLogin
  cases hlogin : P.login crypto username password with
  | error e => rfl
  | ok user =>
    dsimp only
    cases hsession : P.createSession user.userId sessionTtlSeconds token now with
    | error e => rfl
    | ok session => rw [(PlatformStore.createSession_ok hsession).2]

/-- The users after a signup are those after its user is created. -/
theorem users_platformSignup (crypto : PlatformCrypto) (P : PlatformStore)
    (username password userToken salt token : String) (now sessionNow : UInt64) :
    (platformSignup crypto P username password userToken salt token now sessionNow).1.users =
      ((P.createUser crypto username password userToken salt now).toOption.elim P
        Prod.fst).users := by
  unfold platformSignup
  cases hcreate : P.createUser crypto username password userToken salt now with
  | error e => rfl
  | ok created =>
    dsimp only
    cases hsession : created.1.createSession created.2.userId sessionTtlSeconds token sessionNow with
    | error e => rfl
    | ok session =>
      rw [(PlatformStore.createSession_ok hsession).2]
      rfl

/-- A login only depends on the users. -/
theorem PlatformStore.login_congr {Q : PlatformStore} (h : Q.users = P.users)
    (username password : String) :
    Q.login crypto username password = P.login crypto username password := by
  unfold PlatformStore.login
  rw [h]

/-- A user that is created can log in with the password, and nobody else can. -/
theorem PlatformStore.login_createUser
    (hverify : ∀ salt p q, crypto.verifyPassword (crypto.hashPassword salt p) q = true ↔ p = q)
    {username chosen userToken salt : String} {now : UInt64} {created : PlatformStore × PublicUser}
    (h : P.createUser crypto username chosen userToken salt now = .ok created)
    (name password : String) (user : PublicUser) :
    created.1.login crypto name password = .ok user ↔
      (normalizeUsername username = normalizeUsername name ∧ chosen = password ∧
        created.2 = user) ∨ P.login crypto name password = .ok user := by
  obtain ⟨users, hinsert, rfl, hname, hpassword⟩ := PlatformStore.createUser_ok h
  rw [PlatformStore.login_eq_ok, PlatformStore.login_eq_ok]
  dsimp only
  have hfind := UniqueTable.findOther?_of_insert hinsert (normalizeUsername name)
  rw [hfind]
  by_cases hsame : normalizeUsername username = normalizeUsername name
  · rw [if_pos hsame]
    constructor
    · rintro ⟨-, -, row, hrow, hok, rfl⟩
      obtain rfl := Option.some.inj hrow
      exact .inl ⟨hsame, (hverify _ _ _).mp hok, rfl⟩
    · rintro (⟨-, rfl, rfl⟩ | ⟨-, -, row, hrow, -⟩)
      · exact ⟨hsame ▸ hname, hpassword, _, rfl, (hverify _ _ _).mpr rfl, rfl⟩
      · obtain ⟨hmem, hother⟩ := UniqueTable.findOther?_eq_some.mp hrow
        exact absurd (hother.trans hsame.symm) ((UniqueTable.insert_eq_some hinsert).1 row hmem).2
  · rw [if_neg hsame]
    exact (or_iff_right fun hnew => hsame hnew.1).symm

/-- What a request does to who can log in. -/
theorem PlatformStore.login_step
    (hverify : ∀ salt p q, crypto.verifyPassword (crypto.hashPassword salt p) q = true ↔ p = q)
    (request : PlatformRequest) (name password : String) (user : PublicUser) :
    (P.step crypto request).login crypto name password = .ok user ↔
      request.registers crypto P (normalizeUsername name) password user ∨
        P.login crypto name password = .ok user ∧ ¬ False := by
  rw [and_iff_left not_false]
  -- A request that leaves the users leaves the logins.
  have hframe : ∀ Q : PlatformStore, Q.users = P.users →
      (Q.login crypto name password = .ok user ↔
        False ∨ P.login crypto name password = .ok user) := by
    intro Q hQ
    rw [PlatformStore.login_congr hQ, false_or]
  by_cases haccount : request.isAccount = false
  · have hsame := (PlatformStore.accounts_step crypto P haccount).2
    cases request with
    | signup => cases haccount
    | _ => exact hframe _ hsame
  cases request with
  | signup username chosen userToken salt token now sessionNow =>
    simp only [PlatformStore.step, PlatformRequest.registers]
    have husers := users_platformSignup crypto P username chosen userToken salt
      token now sessionNow
    rw [PlatformStore.login_congr husers]
    cases hcreate : P.createUser crypto username chosen userToken salt now with
    | error e => simp [Except.toOption, Except.map]
    | ok created =>
      -- The user that is created logs in with the password that was chosen.
      refine (PlatformStore.login_createUser hverify hcreate name password user).trans ?_
      exact or_congr_left (and_congr_right fun _ => and_congr_right fun _ =>
        (Except.ok.injEq _ _).symm ▸ Iff.rfl)
  | login username chosen token now =>
    simp only [PlatformStore.step]
    exact hframe _ (users_platformLogin username chosen token now)
  | logout bearer => exact hframe _ rfl
  | purge now =>
    refine hframe _ ?_
    change (P.purgeExpiredSessions now).users = P.users
    unfold PlatformStore.purgeExpiredSessions
    split <;> rfl
  | _ => exact absurd rfl haccount

/-- In every run a name and a password log in as a user exactly if the user has signed up with
them. -/
theorem login_after (crypto : PlatformCrypto)
    (hverify : ∀ salt p q, crypto.verifyPassword (crypto.hashPassword salt p) q = true ↔ p = q)
    (requests : List PlatformRequest) (username password : String) (user : PublicUser) :
    (PlatformStore.after crypto requests).login crypto username password = .ok user ↔
      ∃ before request rest, requests = before ++ request :: rest ∧
        request.registers crypto (PlatformStore.after crypto before) (normalizeUsername username)
          password user := by
  have hrun : EachStep (PlatformStore.step crypto) (fun _ _ => True) PlatformStore.new requests :=
    fun _ _ _ _ => trivial
  have hnot : ¬ PlatformStore.new.login crypto username password = .ok user := by
    rw [PlatformStore.login_eq_ok]
    rintro ⟨-, -, row, hrow, -⟩
    exact absurd (UniqueTable.findOther?_eq_some.mp hrow).1 List.not_mem_nil
  have hsince := foldl_iff_since (I := fun _ => True)
    (P := fun P => P.login crypto username password = .ok user) hrun (fun _ _ _ _ => trivial)
    (fun _ request _ _ => PlatformStore.login_step hverify request username password user) trivial
    hnot
  refine hsince.trans ⟨?_, ?_⟩
  · rintro ⟨before, request, rest, hsplit, hsets, -⟩
    exact ⟨before, request, rest, hsplit, hsets⟩
  · rintro ⟨before, request, rest, hsplit, hsets⟩
    exact ⟨before, request, rest, hsplit, hsets, fun _ _ _ _ => not_false⟩

/-- The name is the one of the signup but for its case and the space around it. -/
theorem login_after_signup :
    ∃ before request rest,
      ([.logout "sess_a", .signup " Ada " "password" "1" "salt" "a" 500 500,
        .signup "ada" "hunter2hunter2" "2" "salt" "b" 600 600] : List PlatformRequest) =
          before ++ request :: rest ∧
      request.registers .plain (PlatformStore.after .plain before) "ada" "password"
        ⟨"usr_1", "ada", 500⟩ :=
  (login_after .plain (fun _ _ _ => decide_eq_true_iff)
    [.logout "sess_a", .signup " Ada " "password" "1" "salt" "a" 500 500,
      .signup "ada" "hunter2hunter2" "2" "salt" "b" 600 600] "aDA\n" "password"
    ⟨"usr_1", "ada", 500⟩).mp rfl

end Tellodb
