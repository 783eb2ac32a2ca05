import Tellodb.Collections.Lasts
import Tellodb.Core.Text
import Tellodb.Expansion.Chunks
import Tellodb.Lifecycle.Retention
import Tellodb.Relational.Table

/-!
# Stable facts

`update_profile_from_text` of `platform.rs`: the stable sentences of a text are put in front of
those of the profile, at most 64 are kept. The sentences of one text are put in front of each other
first, and the list that results, the last sentence in front, is put in front of the profile's from
its front on. So a text that states two stable sentences leaves the earlier one in front
(`stableFacts_recent_iff`). -/

namespace Tellodb

open Collections Relational

/-! ## The code -/

/-- `MAX_STABLE_FACTS` -/
def maxStableFacts : ℕ := 64

/-- `MAX_ACTIVITY_FACTS` -/
def maxActivityFacts : ℕ := 120

/-- `MIN_SENTENCE_LENGTH` -/
def minSentenceLength : ℕ := 10

/-- `MAX_STABLE_SENTENCE_LENGTH` -/
def maxStableSentenceLength : ℕ := 180

/-- `MAX_ACTIVITY_SENTENCE_LENGTH` -/
def maxActivitySentenceLength : ℕ := 220

/-- What a user has done of late. -/
structure ProfileActivity where
  fact : String
  source : String
  timestampMs : UInt64
  deriving DecidableEq

/-- A row of `user_profiles`. -/
structure UserProfile where
  userId : String
  stableFacts : List String
  recentActivity : List ProfileActivity
  lastUpdatedMs : UInt64
  deriving DecidableEq

/-- `normalize_fact` -/
def normalizeFact (text : List Char) : List Char :=
  [' '].intercalate (splitWhitespace text)

/-- `split_sentences` -/
def splitSentences (text : List Char) : List (List Char) :=
  ((text.splitOnP fun c => c = '.' || c = '!' || c = '?' || c = '\n').map trim).filter
    fun sentence => !sentence.isEmpty

/-- `contains_any` -/
def containsAny (haystack : String) (needles : List String) : Bool :=
  needles.any fun needle => containsText haystack needle

/-- `is_first_person_sentence` -/
def isFirstPersonSentence (lower : String) : Bool :=
  containsAny lower
    [" i ", " i'm ", " i’m ", " i am ", " i'd ", " i’d ", " i have ", " i’ve ", " i've ", " my "]

/-- `insert_unique_front` -/
def insertUniqueFront (items : List String) (value : String) (maxLen : ℕ) : List String :=
  let rest := (items.idxOf? value).elim items items.eraseIdx
  let inserted := value :: rest
  if inserted.length > maxLen then inserted.take maxLen else inserted

/-- The markers of `extract_profile_stable_facts`. -/
def stableMarkers : List String :=
  ["i am", "i'm", "i’m", "i have", "i've", "i’ve", "i use", "i prefer", "i like", "i love",
    "i work", "i live", "i own", "usually", "typically", "currently"]

/-- The markers of `extract_profile_activity_facts`. -/
def activityMarkers : List String :=
  ["today", "yesterday", "last ", "this ", "in january", "in february", "in march", "in april",
    "in may", "in june", "in july", "in august", "in september", "in october", "in november",
    "in december", "i went", "i bought", "i attended", "i started", "i finished", "i did"]

/-- Whether a normalized sentence is taken: by its length in bytes, and if it is in the first person
with a marker. -/
def isProfileFact (markers : List String) (maxLength : ℕ) (normalized : List Char) : Bool :=
  if utf8Len normalized < minSentenceLength ∨ utf8Len normalized > maxLength then false
  else
    let lower := " " ++ toAsciiLowercase (String.ofList normalized) ++ " "
    isFirstPersonSentence lower && containsAny lower markers

/-- The loop of both extractions. -/
def extractProfileFacts (markers : List String) (maxLength maxFacts : ℕ) (text : String) :
    List String :=
  (splitSentences text.toList).foldl (fun out sentence =>
    if isProfileFact markers maxLength (normalizeFact sentence) then
      insertUniqueFront out (String.ofList (normalizeFact sentence)) maxFacts
    else out) []

/-- `extract_profile_stable_facts` -/
def extractProfileStableFacts (text : String) : List String :=
  extractProfileFacts stableMarkers maxStableSentenceLength maxStableFacts text

/-- `extract_profile_activity_facts` -/
def extractProfileActivityFacts (text : String) : List String :=
  extractProfileFacts activityMarkers maxActivitySentenceLength maxActivityFacts text

/-- An activity in front of those of the profile. -/
def insertActivityFront (items : List ProfileActivity) (item : ProfileActivity) :
    List ProfileActivity :=
  let rest := (items.findIdx? fun existing =>
    existing.fact = item.fact && existing.source = item.source).elim items items.eraseIdx
  let inserted := item :: rest
  if inserted.length > maxActivityFacts then inserted.take maxActivityFacts else inserted

/-- The arguments of an update. -/
structure ProfileUpdate where
  userId : String
  text : String
  timestampMs : UInt64
  source : String
  deriving DecidableEq

/-- A `u64` that SQLite takes as an integer. -/
def Storable (timestampMs : UInt64) : Prop :=
  timestampMs.toNat < 9223372036854775808

instance decidableStorable (timestampMs : UInt64) : Decidable (Storable timestampMs) :=
  inferInstanceAs (Decidable (timestampMs.toNat < 9223372036854775808))

/-- The stored profiles, one for a user. -/
abbrev UserProfiles := Table UserProfile.userId

/-- The profile of a user, an empty one if there is none. -/
def UserProfiles.profile (profiles : UserProfiles) (userId : String) : UserProfile :=
  (profiles.find? userId).getD ⟨userId, [], [], 0⟩

/-- `update_profile_from_text`. It fails where SQLite does not take the time of the update. -/
def UserProfiles.updateFromText (profiles : UserProfiles) (update : ProfileUpdate) :
    Option UserProfiles :=
  let stable := extractProfileStableFacts update.text
  let activity := extractProfileActivityFacts update.text
  if stable.isEmpty && activity.isEmpty then some profiles
  else
    let current := UserProfiles.profile profiles update.userId
    let updated : UserProfile :=
      { userId := update.userId
        stableFacts := stable.foldl (fun facts fact => insertUniqueFront facts fact maxStableFacts)
          current.stableFacts
        recentActivity := activity.foldl (fun items fact =>
          insertActivityFront items ⟨fact, update.source, update.timestampMs⟩)
          current.recentActivity
        lastUpdatedMs := max update.timestampMs current.lastUpdatedMs }
    if Storable updated.lastUpdatedMs then some (profiles.insertOrReplace updated) else none

/-- A transaction that fails is rolled back. -/
def UserProfiles.update (profiles : UserProfiles) (update : ProfileUpdate) : UserProfiles :=
  (UserProfiles.updateFromText profiles update).getD profiles

/-- The profiles after updates. -/
def profilesAfter (run : List ProfileUpdate) : UserProfiles :=
  run.foldl UserProfiles.update (Table.empty UserProfile.userId)

/-! ## One text -/

/-- An insertion at the front moves the value there. -/
theorem insertUniqueFront_eq (items : List String) (value : String) (maxLen : ℕ) :
    insertUniqueFront items value maxLen = moveToFront maxLen items value := by
  have herase : (items.idxOf? value).elim items items.eraseIdx = items.erase value := by
    rw [List.erase_eq_eraseIdx]
    cases items.idxOf? value <;> rfl
  unfold insertUniqueFront moveToFront
  dsimp only
  rw [herase]
  split
  · rfl
  · rename_i hshort
    exact (List.take_of_length_le (Nat.le_of_not_lt hshort)).symm

/-- The sentences of a text that are taken, in their order. -/
def profileSentences (markers : List String) (maxLength : ℕ) (text : String) : List String :=
  (((splitSentences text.toList).map normalizeFact).filter
    (isProfileFact markers maxLength)).map String.ofList

/-- The stable sentences of a text. -/
def stableSentences (text : String) : List String :=
  profileSentences stableMarkers maxStableSentenceLength text

/-- What is extracted of a text is what it says last, the last sentence in front. -/
theorem extractProfileFacts_eq (markers : List String) (maxLength maxFacts : ℕ) (text : String) :
    extractProfileFacts markers maxLength maxFacts text =
      (recents (profileSentences markers maxLength text)).take maxFacts := by
  -- Only the sentences that are facts are moved to the front.
  have hfold : ∀ (sentences : List (List Char)) (out : List String),
      sentences.foldl (fun out sentence =>
        if isProfileFact markers maxLength (normalizeFact sentence) then
          insertUniqueFront out (String.ofList (normalizeFact sentence)) maxFacts
        else out) out =
      (((sentences.map normalizeFact).filter (isProfileFact markers maxLength)).map
        String.ofList).foldl (moveToFront maxFacts) out := by
    intro sentences
    induction sentences with
    | nil => exact fun out => rfl
    | cons sentence rest ih =>
      intro out
      rw [List.foldl_cons, List.map_cons, ih]
      by_cases hfact : isProfileFact markers maxLength (normalizeFact sentence) = true
      · rw [if_pos hfact, List.filter_cons_of_pos hfact, List.map_cons, List.foldl_cons,
          insertUniqueFront_eq]
      · rw [if_neg hfact, List.filter_cons_of_neg hfact]
  unfold extractProfileFacts
  rw [hfold]
  have hempty : ([] : List String) = (recents ([] : List String)).take maxFacts := by
    rw [show recents ([] : List String) = [] from rfl, List.take_nil]
  -- The loop starts from the empty list, which is the recent part of no sentences.
  calc List.foldl (moveToFront maxFacts) [] (profileSentences markers maxLength text)
      = List.foldl (moveToFront maxFacts) ((recents []).take maxFacts)
          (profileSentences markers maxLength text) := by rw [← hempty]
    _ = (recents ([] ++ profileSentences markers maxLength text)).take maxFacts :=
        foldl_moveToFront _ _ _
    _ = (recents (profileSentences markers maxLength text)).take maxFacts := by
        rw [List.nil_append]

/-! ## Updates -/

/-- The updates of a user that are not rolled back. -/
def updatesOf (userId : String) (run : List ProfileUpdate) : List ProfileUpdate :=
  run.filter fun update => update.userId = userId ∧ Storable update.timestampMs

/-- The last update counts if it is the user's and its time can be stored. -/
theorem updatesOf_concat (userId : String) (run : List ProfileUpdate) (update : ProfileUpdate) :
    updatesOf userId (run ++ [update]) = updatesOf userId run ++
      if update.userId = userId ∧ Storable update.timestampMs then [update] else [] := by
  unfold updatesOf
  rw [List.filter_append, List.filter_singleton]
  by_cases hof : update.userId = userId ∧ Storable update.timestampMs
  · rw [if_pos hof, decide_eq_true hof, cond_true]
  · rw [if_neg hof, decide_eq_false hof, cond_false]

/-- What a user has stated: the stable sentences of the texts, one text after the other. -/
def statedBy (userId : String) (run : List ProfileUpdate) : List String :=
  (updatesOf userId run).flatMap fun update => stableSentences update.text

/-- What is put in front of the facts of a user. -/
def extractedBy (userId : String) (run : List ProfileUpdate) : List String :=
  (updatesOf userId run).flatMap fun update => extractProfileStableFacts update.text

/-- The times of the profiles are ones that SQLite takes. -/
def UserProfiles.InRange (profiles : UserProfiles) : Prop :=
  ∀ userId, Storable (UserProfiles.profile profiles userId).lastUpdatedMs

/-- The later of two times is storable if both are. -/
theorem storable_max {a b : UInt64} (hb : Storable b) : Storable (max a b) ↔ Storable a := by
  unfold Storable at *
  change (if a ≤ b then b else a).toNat < _ ↔ _
  by_cases hle : a ≤ b
  · rw [if_pos hle]
    have hnat := UInt64.le_iff_toNat_le.mp hle
    exact iff_of_true hb (by omega)
  · rw [if_neg hle]

/-- A profile that is written is read back, and the others are as before. -/
theorem profile_insertOrReplace (profiles : UserProfiles) (updated : UserProfile)
    (userId : String) : UserProfiles.profile (profiles.insertOrReplace updated) userId =
      if updated.userId = userId then updated else UserProfiles.profile profiles userId := by
  unfold UserProfiles.profile
  rw [Table.find?_insertOrReplace]
  by_cases hid : updated.userId = userId
  · rw [if_pos hid, if_pos hid]
    rfl
  · rw [if_neg hid, if_neg hid]

/-- An update puts what is extracted of its text in front of the facts of its user. -/
theorem UserProfiles.update_spec {profiles : UserProfiles} (h : UserProfiles.InRange profiles)
    (update : ProfileUpdate) : UserProfiles.InRange (UserProfiles.update profiles update) ∧
      ∀ userId, (UserProfiles.profile (UserProfiles.update profiles update) userId).stableFacts =
        if update.userId = userId ∧ Storable update.timestampMs then
          (extractProfileStableFacts update.text).foldl (moveToFront maxStableFacts)
            (UserProfiles.profile profiles userId).stableFacts
        else (UserProfiles.profile profiles userId).stableFacts := by
  -- The two ways to move a fact to the front are the same.
  have hfold : ∀ facts stable : List String,
      stable.foldl (fun facts fact => insertUniqueFront facts fact maxStableFacts) facts =
        stable.foldl (moveToFront maxStableFacts) facts := by
    intro facts stable
    refine congrArg (fun f => List.foldl f facts stable) ?_
    exact funext fun facts => funext fun fact => insertUniqueFront_eq facts fact maxStableFacts
  have hcurrent := h update.userId
  unfold UserProfiles.update UserProfiles.updateFromText
  dsimp only
  -- A text without facts changes nothing.
  by_cases hnone : (extractProfileStableFacts update.text).isEmpty = true ∧
      (extractProfileActivityFacts update.text).isEmpty = true
  · rw [if_pos (by rw [hnone.1, hnone.2]; rfl), Option.getD_some]
    refine ⟨h, fun userId => ?_⟩
    rw [List.isEmpty_iff.mp hnone.1, List.foldl_nil, ite_self]
  · rw [if_neg (by simpa using hnone)]
    -- A time that cannot be stored fails the write.
    by_cases htime : Storable update.timestampMs
    · rw [if_pos ((storable_max hcurrent).mpr htime), Option.getD_some]
      refine ⟨fun userId => ?_, fun userId => ?_⟩
      · rw [profile_insertOrReplace]
        by_cases hid : update.userId = userId
        · rw [if_pos hid]
          exact (storable_max hcurrent).mpr htime
        · rw [if_neg hid]
          exact h userId
      · rw [profile_insertOrReplace]
        by_cases hid : update.userId = userId
        · rw [if_pos hid, if_pos ⟨hid, htime⟩, hfold, hid]
        · rw [if_neg hid, if_neg fun hboth => hid hboth.1]
    · rw [if_neg fun hmax => htime ((storable_max hcurrent).mp hmax), Option.getD_none]
      exact ⟨h, fun userId => (if_neg fun hboth => htime hboth.2).symm⟩

/-- Without profiles all times are in range. -/
theorem inRange_empty : UserProfiles.InRange (Table.empty UserProfile.userId) :=
  fun _ => (by decide : Storable 0)

/-- The facts of a user are those that were extracted last. -/
theorem stableFacts_profilesAfter (run : List ProfileUpdate) :
    UserProfiles.InRange (profilesAfter run) ∧
      ∀ userId, (UserProfiles.profile (profilesAfter run) userId).stableFacts =
        (recents (extractedBy userId run)).take maxStableFacts := by
  induction run using List.reverseRecOn with
  | nil => exact ⟨inRange_empty, fun _ => rfl⟩
  | append_singleton run update ih =>
    obtain ⟨hrange, hfacts⟩ := ih
    obtain ⟨hrange', hupdate⟩ := UserProfiles.update_spec hrange update
    have hafter : profilesAfter (run ++ [update]) =
        UserProfiles.update (profilesAfter run) update := by
      unfold profilesAfter
      rw [List.foldl_append, List.foldl_cons, List.foldl_nil]
    rw [hafter]
    refine ⟨hrange', fun userId => ?_⟩
    rw [hupdate, hfacts]
    unfold extractedBy
    rw [updatesOf_concat, List.flatMap_append]
    by_cases hof : update.userId = userId ∧ Storable update.timestampMs
    · rw [if_pos hof, if_pos hof, List.flatMap_singleton, foldl_moveToFront]
    · rw [if_neg hof, if_neg hof, List.flatMap_nil, List.append_nil]

/-! ## What is stated last -/

/-- A text states one stable sentence at most, if in other words. -/
def StatesOne (text : String) : Prop :=
  ∀ a ∈ stableSentences text, ∀ b ∈ stableSentences text, a = b

instance decidableStatesOne (text : String) : Decidable (StatesOne text) :=
  inferInstanceAs (Decidable (∀ a ∈ stableSentences text, ∀ b ∈ stableSentences text, a = b))

/-- The facts that are extracted are the most recent stable sentences. -/
theorem extractProfileStableFacts_eq (text : String) :
    extractProfileStableFacts text = (recents (stableSentences text)).take maxStableFacts :=
  extractProfileFacts_eq _ _ _ _

/-- If every text states one sentence at most, what is extracted is put in front as what is
stated. -/
theorem recents_extractedBy {run : List ProfileUpdate} {userId : String}
    (h : ∀ update ∈ updatesOf userId run, StatesOne update.text) :
    recents (extractedBy userId run) = recents (statedBy userId run) := by
  unfold extractedBy statedBy
  generalize updatesOf userId run = updates at h
  induction updates using List.reverseRecOn with
  | nil => rfl
  | append_singleton updates update ih =>
    have hlast := h update (List.mem_append_right _ List.mem_cons_self)
    have hbefore := ih fun u hu => h u (List.mem_append_left _ hu)
    rw [List.flatMap_append, List.flatMap_append, List.flatMap_singleton, List.flatMap_singleton,
      extractProfileStableFacts_eq]
    have hkeep := recents_append_recents hlast
      (updates.flatMap fun u => extractProfileStableFacts u.text) 63
    rw [show maxStableFacts = 63 + 1 from rfl, hkeep]
    exact recents_append_congr hbefore _

/-- A text that states more leaves another sentence in front than the one it states last. -/
theorem statesOne_of_front {run : List ProfileUpdate} {update : ProfileUpdate}
    (htime : Storable update.timestampMs)
    (h : (recents (extractedBy update.userId (run ++ [update]))).take maxStableFacts =
      (recents (statedBy update.userId (run ++ [update]))).take maxStableFacts) :
    StatesOne update.text := by
  -- The fact at the front is the last one.
  have hfront : ∀ l : List String, ((recents l).take maxStableFacts).head? = l.getLast? := by
    intro l
    rw [List.head?_take, if_neg (by decide), head?_recents]
  have hhead := congrArg List.head? h
  unfold extractedBy statedBy at hhead
  rw [hfront, hfront, updatesOf_concat, if_pos ⟨rfl, htime⟩, List.flatMap_append,
    List.flatMap_append, List.flatMap_singleton, List.flatMap_singleton] at hhead
  by_cases hnone : stableSentences update.text = []
  · intro a ha
    rw [hnone] at ha
    exact absurd ha List.not_mem_nil
  -- What is extracted has the last sentence at its front.
  · have hextract : (extractProfileStableFacts update.text).head? =
        (stableSentences update.text).getLast? := by
      rw [extractProfileStableFacts_eq, hfront]
    have hsome : extractProfileStableFacts update.text ≠ [] := by
      intro hempty
      rw [hempty] at hextract
      exact hnone (List.getLast?_eq_none_iff.mp hextract.symm)
    rw [List.getLast?_append_of_ne_nil _ hsome, List.getLast?_append_of_ne_nil _ hnone,
      ← hextract] at hhead
    have hnodup : (extractProfileStableFacts update.text).Nodup := by
      rw [extractProfileStableFacts_eq]
      exact (nodup_recents _).sublist (List.take_sublist _ _)
    -- The extracted facts are folded in once more, so the first of them is also the last.
    have hshort := length_le_one_of_head?_eq_getLast? hnodup hhead.symm
    rw [extractProfileStableFacts_eq, List.length_take] at hshort
    have hone : (recents (stableSentences update.text)).length ≤ 1 := by
      unfold maxStableFacts at hshort
      omega
    intro a ha b hb
    obtain ⟨c, hc⟩ := List.length_eq_one_iff.mp
      (le_antisymm hone (List.length_pos_of_mem (mem_recents.mpr ha)))
    -- So all the sentences are the same.
    have hall : ∀ d ∈ stableSentences update.text, d = c := fun d hd =>
      List.mem_singleton.mp (hc ▸ mem_recents.mpr hd)
    rw [hall a ha, hall b hb]

/-- After all updates up to any one, the facts of each user are the 64 stable sentences stated last,
the last one first, if and only if no text states two. -/
theorem stableFacts_recent_iff (run : List ProfileUpdate) :
    (∀ before, before <+: run → ∀ userId,
      (UserProfiles.profile (profilesAfter before) userId).stableFacts =
        (recents (statedBy userId before)).take maxStableFacts) ↔
      ∀ update ∈ run, Storable update.timestampMs → StatesOne update.text := by
  constructor
  · intro h update hupdate htime
    obtain ⟨before, after, rfl⟩ := List.append_of_mem hupdate
    refine @statesOne_of_front before update htime ?_
    rw [← h (before ++ [update]) ⟨after, by simp⟩ update.userId]
    exact ((stableFacts_profilesAfter _).2 _).symm
  · intro h before hbefore userId
    rw [(stableFacts_profilesAfter before).2 userId, recents_extractedBy]
    intro update hupdate
    obtain ⟨hmem, hof⟩ := List.mem_filter.mp hupdate
    exact h update (hbefore.subset hmem) (of_decide_eq_true hof).2

/-- A text with two stable sentences. -/
private def chefInOslo : ProfileUpdate :=
  ⟨"u", "I am a chef here. I live in Oslo now.", 1, "ingest"⟩

/-- The sentence stated last is behind the one before it. -/
theorem stableFacts_reversed :
    (UserProfiles.profile (profilesAfter [chefInOslo]) "u").stableFacts =
        ["I am a chef here", "I live in Oslo now"] ∧
      (recents (statedBy "u" [chefInOslo])).take maxStableFacts =
        ["I live in Oslo now", "I am a chef here"] := by
  decide +kernel

end Tellodb
