import Tellodb.Core.Identity
import Tellodb.Expansion.Payloads
import Tellodb.Storage.Memories

/-!
# Identifiers of an expansion

The identifiers that the expansion of a batch makes. The records of a payload extend its identifier
by tags that differ, so all are distinct, and each extends the identifier of one payload, unless a
payload of the batch extends another (`expandPayloads_distinct_iff`). -/

namespace Tellodb

/-! ## Identifiers that extend another -/

/-- No colon is behind the last separator of an identifier. -/
def EndsClear (value : String) : Prop :=
  ':' ∉ (splitParts value.toList).2

/-- The text of a structured identifier with the tags that its text stands for. -/
def IsCanonical (value : String) : Prop :=
  ∃ entity session turn tags, (∀ tag ∈ tags, tag.Canonical) ∧
    value = (MemoryId.ofTags entity session turn tags).rendered

/-- A canonical id does not end in a colon. -/
theorem IsCanonical.endsClear {value : String} (h : IsCanonical value) : EndsClear value := by
  obtain ⟨entity, session, turn, tags, -, rfl⟩ := h
  obtain ⟨-, -, -, -, -, hclear, -⟩ := ofTags_parts entity session turn tags
  exact hclear

/-- An identifier extends another by a separator and more. -/
theorem startsOf_iff {p id : String} :
    startsOf p id = true ↔ id = p ∨ p.toList ++ [':', ':'] <+: id.toList := by
  unfold startsOf derivedPrefix
  rw [Bool.or_eq_true_iff, decide_eq_true_iff, List.isPrefixOf_iff_prefix, String.toList_append]
  exact Iff.rfl

/-- Every id starts itself. -/
theorem startsOf_self (p : String) : startsOf p p = true :=
  startsOf_iff.mpr (.inl rfl)

/-- A parent's id starts the ids that are derived from it. -/
theorem startsOf_derivedFrom (p tag : String) : startsOf p (MemoryId.derivedFrom p tag) = true := by
  refine startsOf_iff.mpr (.inr ?_)
  rw [toList_derivedFrom]
  exact List.prefix_append _ _

/-- What extends an identifier starts with it. -/
theorem isPrefix_of_startsOf {p id : String} (h : startsOf p id = true) :
    p.toList <+: id.toList := by
  rcases startsOf_iff.mp h with rfl | hlead
  · exact List.prefix_refl _
  · exact (List.prefix_append _ _).trans hlead

/-- What starts a start of an id starts the id. -/
theorem startsOf_trans {p q id : String} (hpq : startsOf p q = true) (hq : startsOf q id = true) :
    startsOf p id = true := by
  rcases startsOf_iff.mp hpq with rfl | hlead
  · exact hq
  · exact startsOf_iff.mpr (.inr (hlead.trans (isPrefix_of_startsOf hq)))

/-- An identifier that is longer by a colon has the colon behind its last separator. -/
theorem ne_append_colon {p q : String} (hp : EndsClear p) (hq : EndsClear q) :
    q.toList ≠ p.toList ++ [':'] := by
  intro h
  unfold EndsClear splitParts at hp hq
  rw [h, List.foldl_append, List.foldl_cons, List.foldl_nil] at hq
  unfold splitStep at hq
  rw [if_neg fun hcolon => hp (List.mem_of_getLast? hcolon.2)] at hq
  exact hq (List.mem_append_right _ List.mem_cons_self)

/-- Of two identifiers that another one extends, the longer extends the shorter. -/
theorem startsOf_of_length_le {p q id : String} (hp : EndsClear p) (hq : EndsClear q)
    (hpid : startsOf p id = true) (hqid : startsOf q id = true)
    (hle : p.toList.length ≤ q.toList.length) : startsOf p q = true := by
  have hqprefix := isPrefix_of_startsOf hqid
  obtain ⟨rest, hrest⟩ :=
    List.prefix_of_prefix_length_le (isPrefix_of_startsOf hpid) hqprefix hle
  by_cases hempty : rest = []
  · rw [hempty, List.append_nil, String.toList_inj] at hrest
    rw [hrest]
    exact startsOf_self q
  -- Otherwise the longer one goes on where the shorter one ends.
  have hsome : 0 < rest.length := List.length_pos_iff.mpr hempty
  have hlength : q.toList.length = p.toList.length + rest.length := by
    rw [← hrest, List.length_append]
  have hlonger := hqprefix.length_le
  have hlead : p.toList ++ [':', ':'] <+: id.toList := by
    refine (startsOf_iff.mp hpid).resolve_left fun hid => ?_
    rw [hid] at hlonger
    omega
  have htwo : (p.toList ++ [':', ':']).length = p.toList.length + 2 := List.length_append
  -- Two more characters hold the separator, and one alone would be a colon.
  by_cases hmany : 2 ≤ rest.length
  · exact startsOf_iff.mpr (.inr (List.prefix_of_prefix_length_le hlead hqprefix (by omega)))
  · obtain ⟨c, rfl⟩ := List.length_eq_one_iff.mp (by omega : rest.length = 1)
    have hcolon : q.toList <+: p.toList ++ [':', ':'] :=
      List.prefix_of_prefix_length_le hqprefix hlead (by omega)
    rw [← hrest, List.prefix_append_right_inj, List.cons_prefix_cons] at hcolon
    rw [hcolon.1] at hrest
    exact absurd hrest.symm (ne_append_colon hp hq)

/-- What extends two identifiers makes one of them extend the other. -/
theorem startsOf_or {p q id : String} (hp : EndsClear p) (hq : EndsClear q)
    (hpid : startsOf p id = true) (hqid : startsOf q id = true) :
    startsOf p q = true ∨ startsOf q p = true :=
  (Nat.le_total p.toList.length q.toList.length).imp (startsOf_of_length_le hp hq hpid hqid)
    (startsOf_of_length_le hq hp hqid hpid)

/-! ## Tags -/

/-- A tag that is written as it is. -/
def IsPlainTag (tag : String) : Prop :=
  MemoryId.derivedPart tag = tag.toList

/-- A tag without `%` and `:` is written as it is, if it does not begin as the tag of a chunk or is
one. -/
theorem isPlainTag_of {tag : String} (hclear : ∀ c ∈ tag.toList, c ≠ '%' ∧ c ≠ ':')
    (hchunk : ∀ value, Tag.fromComponent tag = .chunk value →
      Tag.component (.chunk value) = tag) : IsPlainTag tag := by
  have hcomponent : (Tag.fromComponent tag).component = tag := by
    rcases Tag.component_fromComponent tag with ⟨value, hvalue⟩ | hsame
    · rw [hvalue]
      exact hchunk value hvalue
    · exact hsame
  unfold IsPlainTag MemoryId.derivedPart escapeComponent
  rw [hcomponent, String.toList_ofList, List.flatMap_congr (g := fun c => [c])]
  · exact List.flatMap_singleton' _
  · intro c hc
    rw [if_neg (hclear c hc).1, if_neg (hclear c hc).2]

/-- A text stands for a chunk if it is a `c` and a number. -/
theorem chunk_of_fromComponent {component : String} {value : UInt32}
    (h : Tag.fromComponent component = .chunk value) :
    component.toList.head? = some 'c' ∧ parseU32 component.toList.tail = some value := by
  unfold Tag.fromComponent at h
  by_cases hquery : component = "sq"
  · rw [if_pos hquery] at h
    exact absurd h (by simp)
  simp only [if_neg hquery] at h
  by_cases hhead : component.toList.head? = some 'c'
  · rw [if_pos hhead] at h
    cases hparse : parseU32 component.toList.tail with
    | some found =>
      rw [hparse] at h
      exact ⟨hhead, congrArg some (Tag.chunk.inj h)⟩
    | none =>
      rw [hparse] at h
      dsimp only at h
      split at h
      · exact absurd h (by simp)
      · split at h <;> exact absurd h (by simp)
  · rw [if_neg hhead] at h
    dsimp only at h
    split at h
    · exact absurd h (by simp)
    · split at h <;> exact absurd h (by simp)

/-- Numbers with the same digits are the same. -/
theorem toString_injective {m n : ℕ} (h : (toString m).toList = (toString n).toList) : m = n := by
  have hlist : ∀ k : ℕ, (toString k).toList = Nat.toDigits 10 k := fun _ => Nat.toList_repr
  have hvalue : ∀ k : ℕ, Nat.ofDigitChars 10 (Nat.toDigits 10 k) 0 = k := fun _ =>
    Nat.ofDigitChars_toDigits (by omega) (by omega)
  rw [hlist, hlist] at h
  rw [← hvalue m, h, hvalue]

/-- Tags with a number differ where their numbers do. -/
theorem numbered_injective (stem : String) {m n : ℕ} (h : stem ++ toString m = stem ++ toString n) :
    m = n := by
  have hlist := congrArg String.toList h
  rw [String.toList_append, String.toList_append] at hlist
  exact toString_injective (List.append_cancel_left hlist)

/-- A digit is neither of the characters that are escaped. -/
theorem clear_of_mem_toString {n : ℕ} {c : Char} (h : c ∈ (toString n).toList) :
    c ≠ '%' ∧ c ≠ ':' := by
  have hlist : (toString n).toList = Nat.toDigits 10 n := Nat.toList_repr
  rw [hlist] at h
  have hdigit := Nat.isDigit_of_mem_toDigits (by omega) (by omega) h
  constructor
  · rintro rfl
    exact absurd hdigit (by decide)
  · rintro rfl
    exact absurd hdigit (by decide)

/-- A stem with which a number is not the tag of a chunk. -/
structure IsStem (stem : List Char) : Prop where
  clear : ∀ c ∈ stem, c ≠ '%' ∧ c ≠ ':'
  nonempty : stem ≠ []
  noChunk : stem.head? ≠ some 'c' ∨ ∃ c ∈ stem.tail, c.isDigit = false ∧ c ≠ '+'

/-- A stem with a number is a plain tag. -/
theorem isPlainTag_numbered {stem : String} (h : IsStem stem.toList) (n : ℕ) :
    IsPlainTag (stem ++ toString n) := by
  refine isPlainTag_of (fun c hc => ?_) fun value hvalue => ?_
  · rw [String.toList_append] at hc
    exact (List.mem_append.mp hc).elim (h.clear c) clear_of_mem_toString
  · obtain ⟨hhead, hparse⟩ := chunk_of_fromComponent hvalue
    rw [String.toList_append] at hhead hparse
    rcases h.noChunk with hother | ⟨c, hc, hdigit, hplus⟩
    · rw [List.head?_append_of_ne_nil _ h.nonempty] at hhead
      exact absurd hhead hother
    · rw [List.tail_append_of_ne_nil h.nonempty,
        parseU32_of_mem (List.mem_append_left _ hc) hdigit hplus] at hparse
      exact absurd hparse.symm (Option.some_ne_none value)

/-- The tag of a chunk is a plain tag. -/
theorem isPlainTag_chunk (n : ℕ) : IsPlainTag ("c" ++ toString n) := by
  have hlist : ("c" ++ toString n).toList = 'c' :: (toString n).toList := String.toList_append
  refine isPlainTag_of (fun c hc => ?_) fun value hvalue => ?_
  · rw [hlist] at hc
    rcases List.mem_cons.mp hc with rfl | hdigit
    · exact ⟨by decide, by decide⟩
    · exact clear_of_mem_toString hdigit
  · have hparse := (chunk_of_fromComponent hvalue).2
    rw [hlist, List.tail_cons, parseU32_digits] at hparse
    split at hparse
    · rename_i hlt
      rw [← Option.some.inj hparse, Tag.component, UInt32.toNat_ofNat_of_lt' hlt]
    · exact absurd hparse.symm (Option.some_ne_none value)

/-- The tags of a stem with the numbers below one. -/
def numberedTags (stem : String) (n : ℕ) : List String :=
  (List.range n).map fun idx => stem ++ toString idx

/-- Tags that are plain and begin with a character. -/
structure TagGroup (start : Char) (tags : List String) : Prop where
  plain : ∀ tag ∈ tags, IsPlainTag tag
  distinct : tags.Nodup
  begins : ∀ tag ∈ tags, tag.toList.head? = some start

/-- The numbered tags of one stem are a group. -/
theorem tagGroup_numbered {stem : String} {start : Char} (h : IsStem stem.toList)
    (hstart : stem.toList.head? = some start) (n : ℕ) : TagGroup start (numberedTags stem n) where
  plain tag htag := by
    obtain ⟨idx, -, rfl⟩ := List.mem_map.mp htag
    exact isPlainTag_numbered h idx
  distinct := List.nodup_range.map fun _ _ => numbered_injective stem
  begins tag htag := by
    obtain ⟨idx, -, rfl⟩ := List.mem_map.mp htag
    rw [String.toList_append, List.head?_append_of_ne_nil _ h.nonempty]
    exact hstart

/-- So is a tag that is there or not. -/
theorem tagGroup_optional {α : Type} {tag : String} {start : Char} (htag : IsPlainTag tag)
    (hstart : tag.toList.head? = some start) (a : Option α) :
    TagGroup start (a.toList.map fun _ => tag) where
  plain t ht := by
    obtain ⟨_, -, rfl⟩ := List.mem_map.mp ht
    exact htag
  distinct := by
    cases a with
    | none => exact List.nodup_nil
    | some a => exact List.nodup_singleton _
  begins t ht := by
    obtain ⟨_, -, rfl⟩ := List.mem_map.mp ht
    exact hstart

/-- Groups that begin differently have plain tags that differ. -/
theorem nodup_groups {groups : List (Char × List String)}
    (h : ∀ g ∈ groups, TagGroup g.1 g.2) (hstarts : (groups.map Prod.fst).Nodup) :
    (groups.flatMap Prod.snd).Nodup ∧ ∀ tag ∈ groups.flatMap Prod.snd, IsPlainTag tag := by
  constructor
  · refine List.nodup_flatMap.mpr ⟨fun g hg => (h g hg).distinct, ?_⟩
    refine (List.pairwise_map.mp hstarts).imp_of_mem fun hg hg' hne => ?_
    intro tag htag htag'
    exact hne (Option.some.inj (((h _ hg).begins tag htag).symm.trans ((h _ hg').begins tag htag')))
  · intro tag htag
    obtain ⟨g, hg, hmem⟩ := List.mem_flatMap.mp htag
    exact (h g hg).plain tag hmem

/-! ## Companions -/

/-- Records with the numbered tags of a memory. -/
theorem map_memoryId_mapIdx {α : Type} {record : ℕ → α → IngestPayload} {memoryId stem : String}
    (h : ∀ idx a, (record idx a).memoryId = MemoryId.derivedFrom memoryId (stem ++ toString idx))
    (l : List α) : (l.mapIdx record).map IngestPayload.memoryId =
      (numberedTags stem l.length).map (MemoryId.derivedFrom memoryId) := by
  unfold numberedTags
  induction l using List.reverseRecOn with
  | nil => rfl
  | append_singleton l a ih =>
    rw [List.mapIdx_concat, List.map_append, ih, List.length_append, List.length_singleton,
      List.range_succ, List.map_append, List.map_append, List.map_singleton, List.map_singleton,
      List.map_singleton, h]

/-- The tags of facts are numbered on a stem, -/
theorem isStem_fact : IsStem "fact".toList :=
  ⟨by decide, by decide, .inl (by decide)⟩

/-- and those of cards, -/
theorem isStem_card : IsStem "card".toList :=
  ⟨by decide, by decide, .inr ⟨'a', by decide, by decide, by decide⟩⟩

/-- and those of relations. -/
theorem isStem_rel : IsStem "rel".toList :=
  ⟨by decide, by decide, .inl (by decide)⟩

/-- A record that there may be has the one tag. -/
theorem map_memoryId_toList {α : Type} {record : α → IngestPayload} {memoryId tag : String}
    (h : ∀ a, (record a).memoryId = MemoryId.derivedFrom memoryId tag) (a : Option α) :
    (a.toList.map record).map IngestPayload.memoryId =
      (a.toList.map fun _ => tag).map (MemoryId.derivedFrom memoryId) := by
  cases a with
  | none => rfl
  | some a => exact congrArg (fun id => [id]) (h a)

/-- A tag that reads as a companion and holds no separator is plain. -/
theorem isPlainTag_of_companion {tag : String} (hclear : ∀ c ∈ tag.toList, c ≠ '%' ∧ c ≠ ':')
    (h : Tag.fromComponent tag = .companion tag) : IsPlainTag tag :=
  isPlainTag_of hclear fun value hvalue => by
    rw [h] at hvalue
    exact absurd hvalue (by simp)

/-- The tags of the companions of a memory, each kind with the character that begins it. -/
def tagGroups (gist keywords : Option String) (facts cards : ℕ) (event : Option String)
    (relations : ℕ) : List (Char × List String) :=
  [('g', gist.toList.map fun _ => "gist"), ('k', keywords.toList.map fun _ => "kw"),
    ('f', numberedTags "fact" facts), ('c', numberedTags "card" cards),
    ('e', event.toList.map fun _ => "event"), ('r', numberedTags "rel" relations)]

/-- Every group of a payload's tags is one. -/
theorem tagGroup_of_mem {gist keywords event : Option String} {facts cards relations : ℕ}
    {g : Char × List String} (h : g ∈ tagGroups gist keywords facts cards event relations) :
    TagGroup g.1 g.2 := by
  unfold tagGroups at h
  simp only [List.mem_cons, List.not_mem_nil, or_false] at h
  rcases h with rfl | rfl | rfl | rfl | rfl | rfl
  · exact tagGroup_optional (isPlainTag_of_companion (by decide) (by decide +kernel)) rfl gist
  · exact tagGroup_optional (isPlainTag_of_companion (by decide) (by decide +kernel)) rfl keywords
  · exact tagGroup_numbered isStem_fact rfl facts
  · exact tagGroup_numbered isStem_card rfl cards
  · exact tagGroup_optional (isPlainTag_of_companion (by decide) (by decide +kernel)) rfl event
  · exact tagGroup_numbered isStem_rel rfl relations

/-- No two groups start with the same letter. -/
theorem nodup_starts (gist keywords : Option String) (facts cards : ℕ) (event : Option String)
    (relations : ℕ) :
    ((tagGroups gist keywords facts cards event relations).map Prod.fst).Nodup := by
  have hstarts : (tagGroups gist keywords facts cards event relations).map Prod.fst =
      ['g', 'k', 'f', 'c', 'e', 'r'] := rfl
  rw [hstarts]
  decide

section

variable (R : MiningRules) (payload : IngestPayload)

/-- The tags of the companions of a first turn. -/
theorem tags_sessionCompanions : ∃ gist keywords : Option String,
    (payload.sessionCompanions R).map IngestPayload.memoryId =
      (gist.toList.map fun _ => "gist").map (MemoryId.derivedFrom payload.memoryId) ++
        (keywords.toList.map fun _ => "kw").map (MemoryId.derivedFrom payload.memoryId) := by
  have h : ∀ gist keywords : Option String,
      (gist.toList.map payload.gistCompanion ++
          keywords.toList.map payload.keywordCompanion).map IngestPayload.memoryId =
        (gist.toList.map fun _ => "gist").map (MemoryId.derivedFrom payload.memoryId) ++
          (keywords.toList.map fun _ => "kw").map (MemoryId.derivedFrom payload.memoryId) := by
    intro gist keywords
    rw [List.map_append, map_memoryId_toList (fun _ => rfl), map_memoryId_toList (fun _ => rfl)]
  exact ⟨_, _, h _ _⟩

/-- The companions of a memory have tags that differ. -/
theorem tags_buildCompanionPayloads : ∃ tags : List String,
    (payload.buildCompanionPayloads R).map IngestPayload.memoryId =
        tags.map (MemoryId.derivedFrom payload.memoryId) ∧
      tags.Nodup ∧ ∀ tag ∈ tags, IsPlainTag tag := by
  unfold IngestPayload.buildCompanionPayloads
  split
  · exact ⟨[], rfl, List.nodup_nil, fun tag htag => absurd htag List.not_mem_nil⟩
  obtain ⟨gist, keywords, hsession⟩ : ∃ gist keywords : Option String,
      (if payload.turnIndex.getD 0 = 0 then payload.sessionCompanions R else []).map
          IngestPayload.memoryId =
        (gist.toList.map fun _ => "gist").map (MemoryId.derivedFrom payload.memoryId) ++
          (keywords.toList.map fun _ => "kw").map (MemoryId.derivedFrom payload.memoryId) := by
    split
    · exact tags_sessionCompanions R payload
    · exact ⟨none, none, rfl⟩
  refine ⟨(tagGroups gist keywords (R.companionTexts payload.textualContent).2.length
    (R.extract payload.textualContent payload.entityId payload.timestamp payload.relations).length
    (R.eventText payload.textualContent) payload.relations.length).flatMap Prod.snd, ?_,
    nodup_groups (fun _ => tagGroup_of_mem) (nodup_starts _ _ _ _ _ _)⟩
  rw [List.map_append, List.map_append, List.map_append, List.map_append, hsession,
    map_memoryId_mapIdx (fun _ _ => rfl), map_memoryId_mapIdx (fun _ _ => rfl),
    map_memoryId_toList (fun _ => rfl), map_memoryId_mapIdx (fun _ _ => rfl)]
  simp only [tagGroups, List.flatMap_cons, List.flatMap_nil, List.append_nil, List.map_append,
    List.append_assoc]

end

/-! ## The identifiers of a batch -/

/-- A derived id does not end in a colon either. -/
theorem EndsClear.derivedFrom {p : String} (hp : EndsClear p) (tag : String) :
    EndsClear (MemoryId.derivedFrom p tag) := by
  unfold EndsClear
  rw [splitParts_derivedFrom tag (getLast?_ne_colon hp)]
  exact colon_not_mem_derivedPart tag

/-- Plain tags that differ derive identifiers that do not extend each other. -/
theorem eq_of_startsOf_derivedFrom {p tag tag' : String} (h : IsPlainTag tag)
    (h' : IsPlainTag tag')
    (hstarts : startsOf (MemoryId.derivedFrom p tag) (MemoryId.derivedFrom p tag') = true) :
    tag' = tag := by
  unfold IsPlainTag at h h'
  rcases startsOf_iff.mp hstarts with hsame | hlead
  · have hlist := congrArg String.toList hsame
    rw [toList_derivedFrom, toList_derivedFrom, h, h'] at hlist
    exact String.toList_inj.mp (List.append_cancel_left hlist)
  · rw [toList_derivedFrom, toList_derivedFrom, List.append_assoc _ _ [':', ':'],
      List.prefix_append_right_inj] at hlead
    have hcolon : ':' ∈ MemoryId.derivedPart tag' :=
      hlead.subset (List.mem_append_right _ List.mem_cons_self)
    exact absurd hcolon (colon_not_mem_derivedPart tag')

section

variable (R : MiningRules) (enabled : Feature → Bool)

/-- The identifiers that an identifier derives for plain tags that differ. -/
theorem nodup_derivedFrom {p : String} {tags : List String} (hdistinct : tags.Nodup)
    (hplain : ∀ tag ∈ tags, IsPlainTag tag) : (p :: tags.map (MemoryId.derivedFrom p)).Nodup := by
  refine List.nodup_cons.mpr ⟨fun hmem => ?_, List.Nodup.map_on (fun tag htag tag' htag' h => ?_)
    hdistinct⟩
  · obtain ⟨tag, -, htag⟩ := List.mem_map.mp hmem
    have hlength := congrArg List.length (congrArg String.toList htag)
    rw [toList_derivedFrom, List.length_append, List.length_append] at hlength
    have htwo : [':', ':'].length = 2 := rfl
    omega
  · have hstarts : startsOf (MemoryId.derivedFrom p tag') (MemoryId.derivedFrom p tag) = true := by
      rw [h]
      exact startsOf_self _
    exact eq_of_startsOf_derivedFrom (hplain tag' htag') (hplain tag htag) hstarts

/-- A part with its companions has identifiers that differ and extend its own. -/
theorem withCompanions_ids (payload part : IngestPayload) :
    ((payload.withCompanions R enabled part).map IngestPayload.memoryId).Nodup ∧
      ∀ id ∈ (payload.withCompanions R enabled part).map IngestPayload.memoryId,
        startsOf part.memoryId id = true := by
  obtain ⟨tags, htags, hdistinct, hplain⟩ := tags_buildCompanionPayloads R part
  have hids : ((payload.withCompanions R enabled part).map IngestPayload.memoryId).Sublist
      (part.memoryId :: tags.map (MemoryId.derivedFrom part.memoryId)) := by
    unfold IngestPayload.withCompanions
    rw [List.map_cons, ← htags]
    refine List.Sublist.cons_cons _ ?_
    split
    · rw [List.map_map]
      exact (List.filter_sublist (l := part.buildCompanionPayloads R)).map IngestPayload.memoryId
    · exact List.nil_sublist _
  refine ⟨hids.nodup (nodup_derivedFrom hdistinct hplain), fun id hid => ?_⟩
  rcases List.mem_cons.mp (hids.subset hid) with rfl | hderived
  · exact startsOf_self _
  · obtain ⟨tag, -, rfl⟩ := List.mem_map.mp hderived
    exact startsOf_derivedFrom _ tag

/-- The parts of a payload have its identifier, or it derives theirs. -/
theorem units_cases (payload : IngestPayload) :
    (payload.units enabled).map IngestPayload.memoryId = [payload.memoryId] ∨
      ∃ n, 0 < n ∧ (payload.units enabled).map IngestPayload.memoryId =
        (numberedTags "c" n).map (MemoryId.derivedFrom payload.memoryId) := by
  unfold IngestPayload.units
  split
  · unfold IngestPayload.expandPayloadForContentType
    split
    · exact .inl rfl
    · rename_i hmany
      refine .inr ⟨payload.chunks.length, by omega, ?_⟩
      exact map_memoryId_mapIdx (fun _ _ => rfl) payload.chunks
  · exact .inl rfl

/-- Neither of two identifiers extends the other. -/
def Apart (p q : String) : Prop :=
  startsOf p q = false ∧ startsOf q p = false

/-- The parts of a payload extend its identifier, and their identifiers are apart. -/
theorem units_ids {payload : IngestPayload} (hclear : EndsClear payload.memoryId) :
    (∀ part ∈ payload.units enabled, startsOf payload.memoryId part.memoryId = true ∧
        EndsClear part.memoryId) ∧
      (payload.units enabled).Pairwise fun part part' =>
        Apart part.memoryId part'.memoryId := by
  have hall : ∀ ids, (payload.units enabled).map IngestPayload.memoryId = ids →
      (∀ id ∈ ids, startsOf payload.memoryId id = true ∧ EndsClear id) → ids.Pairwise Apart →
        (∀ part ∈ payload.units enabled, startsOf payload.memoryId part.memoryId = true ∧
            EndsClear part.memoryId) ∧
          (payload.units enabled).Pairwise fun part part' =>
            Apart part.memoryId part'.memoryId := by
    rintro ids rfl hids hapart
    exact ⟨fun part hpart => hids _ (List.mem_map_of_mem hpart), List.pairwise_map.mp hapart⟩
  -- The payload is its own unit, or cut into numbered chunks.
  rcases units_cases enabled payload with hone | ⟨n, -, hmany⟩
  · refine hall _ hone (fun id hid => ?_) (List.pairwise_singleton _ _)
    rw [List.mem_singleton.mp hid]
    exact ⟨startsOf_self _, hclear⟩
  · refine hall _ hmany (fun id hid => ?_) (List.pairwise_map.mpr ?_)
    · obtain ⟨tag, -, rfl⟩ := List.mem_map.mp hid
      exact ⟨startsOf_derivedFrom _ tag, hclear.derivedFrom tag⟩
    · have hplain : ∀ tag ∈ numberedTags "c" n, IsPlainTag tag := by
        intro tag htag
        obtain ⟨idx, -, rfl⟩ := List.mem_map.mp htag
        exact isPlainTag_chunk idx
      have hdistinct : (numberedTags "c" n).Nodup :=
        List.nodup_range.map fun _ _ => numbered_injective "c"
      refine hdistinct.imp_of_mem fun {tag tag'} htag htag' hne => ⟨?_, ?_⟩
      · exact Bool.eq_false_iff.mpr fun h =>
          -- The numbers are different, so no chunk starts another.
          hne (eq_of_startsOf_derivedFrom (hplain tag htag) (hplain tag' htag') h).symm
      · exact Bool.eq_false_iff.mpr fun h =>
          hne (eq_of_startsOf_derivedFrom (hplain tag' htag') (hplain tag htag) h)

/-- What extends two identifiers that are apart is nothing. -/
theorem Apart.elim {p q id : String} (h : Apart p q) (hp : EndsClear p) (hq : EndsClear q)
    (hpid : startsOf p id = true) (hqid : startsOf q id = true) : False := by
  rcases startsOf_or hp hq hpid hqid with hpq | hqp
  · exact Bool.false_ne_true (h.1.symm.trans hpq)
  · exact Bool.false_ne_true (h.2.symm.trans hqp)

/-- The records of a payload have identifiers that differ and extend its own. -/
theorem expand_ids {payload : IngestPayload} (hclear : EndsClear payload.memoryId) :
    ((payload.expand R enabled).map IngestPayload.memoryId).Nodup ∧
      ∀ id ∈ (payload.expand R enabled).map IngestPayload.memoryId,
        startsOf payload.memoryId id = true := by
  rw [← memoryId_prepared] at hclear ⊢
  obtain ⟨hunits, hapart⟩ := units_ids enabled hclear
  unfold IngestPayload.expand
  rw [List.map_flatMap]
  constructor
  · refine List.nodup_flatMap.mpr
      ⟨fun part hpart => (withCompanions_ids R enabled _ part).1, ?_⟩
    refine hapart.imp_of_mem fun {part part'} hpart hpart' h id hid hid' => ?_
    exact h.elim (hunits part hpart).2 (hunits part' hpart').2
      ((withCompanions_ids R enabled _ part).2 id hid)
      ((withCompanions_ids R enabled _ part').2 id hid')
  · intro id hid
    obtain ⟨part, hpart, hmem⟩ := List.mem_flatMap.mp hid
    exact startsOf_trans (hunits part hpart).1 ((withCompanions_ids R enabled _ part).2 id hmem)

/-- A payload has a record. -/
theorem expand_ne_nil (payload : IngestPayload) : payload.expand R enabled ≠ [] := by
  have hunits : payload.prepared.units enabled ≠ [] := by
    intro hnone
    rcases units_cases enabled payload.prepared with hone | ⟨n, hn, hmany⟩
    · rw [hnone] at hone
      exact List.cons_ne_nil _ _ hone.symm
    · rw [hnone] at hmany
      have hlength : 0 = n := by simpa [numberedTags] using congrArg List.length hmany
      omega
  obtain ⟨part, rest, hparts⟩ := List.exists_cons_of_ne_nil hunits
  unfold IngestPayload.expand
  rw [hparts, List.flatMap_cons]
  exact List.append_ne_nil_of_left_ne_nil (List.cons_ne_nil _ _) _

/-- The identifiers of the expansion of a batch with distinct canonical identifiers: they differ
and each extends one of the batch, if and only if none of the batch extends another. -/
theorem expandPayloads_distinct_iff {payloads : List IngestPayload}
    (hdistinct : (payloads.map IngestPayload.memoryId).Nodup)
    (hcanonical : ∀ p ∈ payloads, IsCanonical p.memoryId) :
    (((IngestPayload.expandPayloads R enabled payloads).map IngestPayload.memoryId).Nodup ∧
      ∀ id ∈ (IngestPayload.expandPayloads R enabled payloads).map IngestPayload.memoryId,
        ∃! p, p ∈ payloads.map IngestPayload.memoryId ∧ startsOf p id = true) ↔
      ∀ p ∈ payloads.map IngestPayload.memoryId, ∀ q ∈ payloads.map IngestPayload.memoryId,
        startsOf p q = true → p = q := by
  have hids : ∀ id ∈ (IngestPayload.expandPayloads R enabled payloads).map IngestPayload.memoryId,
      ∃ payload ∈ payloads, id ∈ (payload.expand R enabled).map IngestPayload.memoryId := by
    intro id hid
    unfold IngestPayload.expandPayloads at hid
    rw [List.map_flatMap] at hid
    exact List.mem_flatMap.mp hid
  constructor
  · rintro ⟨-, hunique⟩ p hp q hq hpq
    obtain ⟨payload, hpayload, rfl⟩ := List.mem_map.mp hq
    -- The first record of the payload that extends another extends both.
    obtain ⟨record, hrecord⟩ := List.exists_mem_of_ne_nil _ (expand_ne_nil R enabled payload)
    have hstarts : startsOf payload.memoryId record.memoryId = true :=
      (expand_ids R enabled (hcanonical payload hpayload).endsClear).2 _
        (List.mem_map_of_mem hrecord)
    have hmem : record.memoryId ∈
        (IngestPayload.expandPayloads R enabled payloads).map IngestPayload.memoryId :=
      List.mem_map_of_mem (List.mem_flatMap.mpr ⟨payload, hpayload, hrecord⟩)
    obtain ⟨_, -, hsame⟩ := hunique _ hmem
    exact (hsame p ⟨hp, startsOf_trans hpq hstarts⟩).trans (hsame _ ⟨hq, hstarts⟩).symm
  · intro hnone
    -- Payloads that do not start each other have nothing in common.
    have hapart : ∀ p ∈ payloads, ∀ q ∈ payloads, p.memoryId ≠ q.memoryId →
        Apart p.memoryId q.memoryId := by
      intro p hp q hq hne
      exact ⟨Bool.eq_false_iff.mpr fun h =>
          hne (hnone _ (List.mem_map_of_mem hp) _ (List.mem_map_of_mem hq) h),
        Bool.eq_false_iff.mpr fun h =>
          hne (hnone _ (List.mem_map_of_mem hq) _ (List.mem_map_of_mem hp) h).symm⟩
    constructor
    · unfold IngestPayload.expandPayloads
      rw [List.map_flatMap]
      -- Records of one payload are distinct, and those of two payloads start differently.
      refine List.nodup_flatMap.mpr ⟨fun p hp =>
        (expand_ids R enabled (hcanonical p hp).endsClear).1, ?_⟩
      refine (List.pairwise_map.mp hdistinct).imp_of_mem fun {p q} hp hq hne id hid hid' => ?_
      have hclear := (hcanonical p hp).endsClear
      have hclear' := (hcanonical q hq).endsClear
      exact (hapart p hp q hq hne).elim hclear hclear' ((expand_ids R enabled hclear).2 id hid)
        ((expand_ids R enabled hclear').2 id hid')
    · intro id hid
      obtain ⟨payload, hpayload, hmem⟩ := hids id hid
      have hclear := (hcanonical payload hpayload).endsClear
      have hstarts := (expand_ids R enabled hclear).2 id hmem
      -- The payload starts its record, and no other does.
      refine ⟨payload.memoryId, ⟨List.mem_map_of_mem hpayload, hstarts⟩, ?_⟩
      rintro p ⟨hp, hpid⟩
      obtain ⟨other, hother, rfl⟩ := List.mem_map.mp hp
      by_contra hne
      exact (hapart other hother payload hpayload hne).elim (hcanonical other hother).endsClear
        hclear hpid hstarts

end

/-- A gist is mined from every text. -/
def gistRules : MiningRules where
  companionTexts text := (some ("Session gist: " ++ text), [])
  keywordText _ := none
  inferFactKey _ := none
  eventText _ := none
  extract _ _ _ _ := []

/-- A message of an entity. -/
def message (memoryId text : String) : IngestPayload :=
  { IngestPayload.default with
    entityId := "a"
    memoryId := memoryId
    textualContent := text }

/-- Two turns of a session. -/
def twoTurns : List IngestPayload :=
  [message "a::s::0" "User: hello", message "a::s::1" "User: bye"]

/-- The ids of the two turns are canonical. -/
theorem isCanonical_twoTurns : ∀ p ∈ twoTurns, IsCanonical p.memoryId := by
  intro p hp
  unfold twoTurns at hp
  simp only [List.mem_cons, List.not_mem_nil, or_false] at hp
  rcases hp with rfl | rfl
  · exact ⟨"a", "s", 0, [], fun _ h => absurd h List.not_mem_nil, by decide +kernel⟩
  · exact ⟨"a", "s", 1, [], fun _ h => absurd h List.not_mem_nil, by decide +kernel⟩

/-- The theorem at two turns of one session. -/
theorem expandPayloads_distinct_turns :
    ((IngestPayload.expandPayloads gistRules (fun _ => true) twoTurns).map
        IngestPayload.memoryId).Nodup ∧
      ∀ id ∈ (IngestPayload.expandPayloads gistRules (fun _ => true) twoTurns).map
          IngestPayload.memoryId,
        ∃! p, p ∈ twoTurns.map IngestPayload.memoryId ∧ startsOf p id = true :=
  (expandPayloads_distinct_iff gistRules (fun _ => true) (by decide +kernel)
    isCanonical_twoTurns).mpr (by decide +kernel)

/-- A first turn, and a memory that is sent with the identifier of its gist. -/
def turnAndGist : List IngestPayload :=
  [message "a::s::0" "User: hello", message "a::s::0::gist" "A gist of the session"]

/-- The gist of the turn has the identifier of the memory that is sent with it. -/
theorem sent_gist_collides : ¬ ∀ payloads : List IngestPayload,
    (payloads.map IngestPayload.memoryId).Nodup → (∀ p ∈ payloads, IsCanonical p.memoryId) →
      ((IngestPayload.expandPayloads gistRules (fun _ => true) payloads).map
        IngestPayload.memoryId).Nodup := by
  intro h
  have hcanonical : ∀ p ∈ turnAndGist, IsCanonical p.memoryId := by
    intro p hp
    unfold turnAndGist at hp
    simp only [List.mem_cons, List.not_mem_nil, or_false] at hp
    rcases hp with rfl | rfl
    · exact ⟨"a", "s", 0, [], fun _ h => absurd h List.not_mem_nil, by decide +kernel⟩
    · refine ⟨"a", "s", 0, [.companion "gist"], fun tag htag => ?_, by decide +kernel⟩
      rw [List.mem_singleton.mp htag]
      decide +kernel
  exact absurd (h turnAndGist (by decide +kernel) hcanonical) (by decide +kernel)

end Tellodb
