import ModelServer.PipelineSessions

namespace ModelServer

inductive Interface
  | GRPC
  | REST
deriving DecidableEq

inductive Method
  | ConfigReload
  | ConfigStatus
  | ModelInfer
  | ModelInferStream
  | ModelReady
  | ModelMetadata
  | V3Unary
  | V3Stream
deriving DecidableEq

structure ExecutionContext where
  interface : Interface
  method : Method
deriving DecidableEq

/-- The metadata of a session with the context of its request and the key that was made last. -/
structure RequestSession where
  metadata : NodeSessionMetadata
  context : ExecutionContext
  cachedSessionKey : String := ""
  cached : Bool := false
deriving DecidableEq

namespace RequestSession

open NodeSessionMetadata

/-- `NodeSessionMetadata::NodeSessionMetadata()`. -/
def default : RequestSession := ⟨{}, ⟨.GRPC, .ModelInfer⟩, "", false⟩

def root (context : ExecutionContext) : RequestSession := ⟨{}, context, "", false⟩

def generateSubsessions (session : RequestSession) (nodeName : String) (subsessionSize : Nat) :
    Except String (List RequestSession) :=
  (session.metadata.generateSubsessions nodeName subsessionSize).map fun metas => metas.map fun metadata =>
    { session with metadata := metadata, cached := false }

/-- The key, and the session with what is kept of it. -/
def getSessionKey (session : RequestSession) (ignoredNodeNames : Finset String) : Except String String × RequestSession :=
  if ignoredNodeNames.card ≠ 0 then (session.metadata.createSessionKey ignoredNodeNames, session)
  else if session.cached then (.ok session.cachedSessionKey, session)
  else
    match session.metadata.createSessionKey ignoredNodeNames with
    -- the session counts as cached although nothing was kept
    | .error message => (.error message, { session with cached := true })
    | .ok key => (.ok key, { session with cached := true, cachedSessionKey := key })

/-- The new metadata is a default one, to which details and levels are copied. -/
def getCollapsedSessionMetadata (session : RequestSession) (ignoredNodeNames : Finset String) :
    Except String (RequestSession × CollapseDetails) :=
  (session.metadata.getCollapsedSessionMetadata ignoredNodeNames).map fun (metadata, collapsingDetails) =>
    ({ default with metadata := metadata }, collapsingDetails)

/-- Sessions of a request with a context; the key may have been asked for at any time. -/
inductive Built (context : ExecutionContext) : RequestSession → Prop
  | root : Built context (root context)
  | split {session : RequestSession} {nodeName : String} {subsessionSize : Nat} {metas : List RequestSession}
      {subsession : RequestSession} : Built context session →
      session.generateSubsessions nodeName subsessionSize = .ok metas → subsession ∈ metas → Built context subsession
  | key {session : RequestSession} (ignoredNodeNames : Finset String) : Built context session →
      Built context (session.getSessionKey ignoredNodeNames).2

/-- The names of the last levels, as many as there are names in a set. -/
def innermost (session : RequestSession) (names : Finset String) : List String :=
  session.metadata.sessionsLevels.drop (session.metadata.sessionsLevels.length - names.card)

/-- The levels above them. -/
def remaining (session : RequestSession) (names : Finset String) : List String :=
  session.metadata.sessionsLevels.take (session.metadata.sessionsLevels.length - names.card)

/-- What a collapsed session has to be: it has the key of the session, and that key tells the remaining levels apart. -/
structure Collapses (session : RequestSession) (names : Finset String) (collapsed : RequestSession) : Prop where
  key : (session.getSessionKey names).1 = (collapsed.getSessionKey ∅).1
  made : ∃ key, (session.getSessionKey names).1 = .ok key
  exact : ∀ context other, Built context other → other.metadata.sessionsLevels = session.metadata.sessionsLevels →
    ((session.getSessionKey names).1 = (other.getSessionKey names).1 ↔
      ∀ level ∈ session.remaining names, session.metadata.subsessionId level = other.metadata.subsessionId level)
  levels : collapsed.metadata.sessionsLevels = session.remaining names
  details : ∀ level, collapsed.metadata.details.lookup level =
    if level ∈ session.remaining names then session.metadata.details.lookup level else none
  context : collapsed.context = session.context

/-- Names of the last levels are collapsed and left out of the key alike; of any other names neither is possible. -/
structure KeysAgree (session : RequestSession) (names : Finset String) : Prop where
  innermost : names = (session.innermost names).toFinset →
    ∃ collapsed details, session.getCollapsedSessionMetadata names = .ok (collapsed, details) ∧
      Collapses session names collapsed
  other : names ≠ (session.innermost names).toFinset →
    (∃ message, (session.getSessionKey names).1 = .error message) ∧
      ∃ message, session.getCollapsedSessionMetadata names = .error message

/-- What is known of a session of a request. -/
structure Stands (context : ExecutionContext) (levels : List (String × Nat)) (index : List Nat)
    (session : RequestSession) : Prop where
  fresh : Fresh {} levels
  length : index.length = levels.length
  metadata : session.metadata = below {} levels index
  context : session.context = context
  kept : session.cached = true → session.metadata.createSessionKey ∅ = .ok session.cachedSessionKey

section Stands

variable {context : ExecutionContext} {levels : List (String × Nat)} {index : List Nat} {session : RequestSession}

theorem stands_root (context : ExecutionContext) : Stands context [] [] (root context) where
  fresh := ⟨by simp, by simp, by simp, by simp⟩
  length := rfl
  metadata := rfl
  context := rfl
  kept h := by cases h

theorem Stands.sessionsLevels (h : Stands context levels index session) :
    session.metadata.sessionsLevels = levels.map Prod.fst := by
  rw [h.metadata]
  exact List.nil_append _

theorem Stands.details (h : Stands context levels index session) :
    session.metadata.details.map Prod.fst = levels.map Prod.fst := by
  rw [h.metadata]
  exact entries_fst h.length

theorem Stands.fst_getSessionKey (h : Stands context levels index session) (names : Finset String) :
    (session.getSessionKey names).1 = session.metadata.createSessionKey names := by
  unfold getSessionKey
  split
  next => rfl
  next hcard =>
    have hnames : names = ∅ := Finset.card_eq_zero.mp (not_not.mp hcard)
    subst hnames
    split
    next hcached => exact (h.kept hcached).symm
    next => cases session.metadata.createSessionKey ∅ <;> rfl

theorem Stands.snd_getSessionKey (h : Stands context levels index session) (names : Finset String) :
    Stands context levels index (session.getSessionKey names).2 := by
  unfold getSessionKey
  split
  next => exact h
  next hcard =>
    have hnames : names = ∅ := Finset.card_eq_zero.mp (not_not.mp hcard)
    subst hnames
    split
    next => exact h
    next =>
      have hkey := createSessionKey_levels h.fresh h.length
      rw [← h.metadata] at hkey
      rw [hkey]
      exact ⟨h.fresh, h.length, h.metadata, h.context, fun _ => hkey⟩

theorem Stands.generateSubsessions (h : Stands context levels index session) {nodeName : String}
    {subsessionSize : Nat} {metas : List RequestSession} {subsession : RequestSession}
    (hmetas : session.generateSubsessions nodeName subsessionSize = .ok metas) (hm : subsession ∈ metas) :
    ∃ counter, Stands context (levels ++ [(nodeName, subsessionSize)]) (index ++ [counter]) subsession := by
  unfold RequestSession.generateSubsessions NodeSessionMetadata.generateSubsessions at hmetas
  split at hmetas
  next => cases hmetas
  next hnamed =>
    split at hmetas
    next => cases hmetas
    next hlookup =>
      have hnew : nodeName ∉ levels.map Prod.fst := by
        rw [← h.details, ← lookup_eq_none]
        exact Option.not_isSome_iff_eq_none.mp hlookup
      have hfresh := h.fresh.snoc (by simpa using hnamed) hnew List.not_mem_nil List.not_mem_nil subsessionSize
      cases Except.ok.inj hmetas
      obtain ⟨metadata, hmetadata, rfl⟩ := List.mem_map.mp hm
      obtain ⟨counter, _, rfl⟩ := List.mem_map.mp hmetadata
      refine ⟨counter, hfresh, by simp [h.length], ?_, h.context, fun hcached => by cases hcached⟩
      rw [below_append h.length, ← h.metadata]
      rfl

end Stands

theorem Built.stands {context : ExecutionContext} {session : RequestSession} (h : Built context session) :
    ∃ levels index, Stands context levels index session := by
  induction h with
  | root => exact ⟨[], [], stands_root context⟩
  | split _ hmetas hm ih =>
    obtain ⟨levels, index, hsession⟩ := ih
    obtain ⟨counter, hsubsession⟩ := hsession.generateSubsessions hmetas hm
    exact ⟨_, _, hsubsession⟩
  | key names _ ih =>
    obtain ⟨levels, index, hsession⟩ := ih
    exact ⟨levels, index, hsession.snd_getSessionKey names⟩

/-- A session is below its last levels, which are below the levels above them. -/
structure Parted (session : RequestSession) (names : Finset String) (front back : List (String × Nat))
    (outer inner : List Nat) : Prop where
  fresh : Fresh {} front
  length : outer.length = front.length
  fresh_back : Fresh (below {} front outer) back
  length_back : inner.length = back.length
  remaining : front.map Prod.fst = session.remaining names
  innermost : back.map Prod.fst = session.innermost names
  metadata : session.metadata = below (below {} front outer) back inner

theorem Stands.parted {context : ExecutionContext} {levels : List (String × Nat)} {index : List Nat}
    {session : RequestSession} (h : Stands context levels index session) (names : Finset String) :
    ∃ front back outer inner, Parted session names front back outer inner := by
  obtain ⟨count, hcount⟩ : ∃ count, count = levels.length - names.card := ⟨_, rfl⟩
  have hlevels : levels.take count ++ levels.drop count = levels := List.take_append_drop count levels
  have hindex : index.take count ++ index.drop count = index := List.take_append_drop count index
  have hlength : (index.take count).length = (levels.take count).length := by
    rw [List.length_take, List.length_take, h.length]
  have hfresh : Fresh {} (levels.take count ++ levels.drop count) := by
    rw [hlevels]
    exact h.fresh
  refine ⟨levels.take count, levels.drop count, index.take count, index.drop count,
    h.fresh.mono (List.take_prefix _ _), hlength, hfresh.below hlength, ?_, ?_, ?_, ?_⟩
  · rw [List.length_drop, List.length_drop, h.length]
  · rw [RequestSession.remaining, h.sessionsLevels, List.length_map, ← hcount, List.map_take]
  · rw [RequestSession.innermost, h.sessionsLevels, List.length_map, ← hcount, List.map_drop]
  · rw [← below_append hlength, hlevels, hindex]
    exact h.metadata

section Parted

variable {context : ExecutionContext} {session : RequestSession} {names : Finset String}
  {front back : List (String × Nat)} {outer inner : List Nat}

theorem Parted.subsessionId (h : Parted session names front back outer inner) {level : String}
    (hm : level ∈ front.map Prod.fst) : session.metadata.details.lookup level =
      (below {} front outer).details.lookup level := by
  rw [h.metadata]
  apply lookup_above h.length_back
  intro hback
  obtain ⟨level', hlevel', rfl⟩ := List.mem_map.mp hback
  apply h.fresh_back.unlisted level' hlevel'
  exact List.mem_append_right _ hm

theorem Parted.createSessionKey (h : Parted session names front back outer inner)
    (hnames : names = (session.innermost names).toFinset) :
    session.metadata.createSessionKey names = (below {} front outer).createSessionKey ∅ := by
  have hkey := createSessionKey_below h.fresh_back h.length_back
  rw [h.innermost, ← hnames, ← h.metadata] at hkey
  apply hkey
  intro hnil
  have hfst := entries_fst h.length
  have hentries : entries front outer = [] := by simpa [below, entries] using hnil
  show [] ++ front.map Prod.fst = []
  rw [← hfst, hentries]
  rfl

theorem Parted.collapse (h : Parted session names front back outer inner)
    (hnames : names = (session.innermost names).toFinset) (hsome : names.Nonempty) :
    session.getCollapsedSessionMetadata names =
      .ok ({ default with metadata := below {} front outer }, ⟨back.map Prod.fst, back.map Prod.snd⟩) := by
  have hback : back ≠ [] := by
    intro hnil
    rw [hnil] at h
    rw [← h.innermost] at hnames
    rw [hnames] at hsome
    exact Finset.not_nonempty_empty hsome
  have hcollapsed := getCollapsedSessionMetadata_below h.fresh_back hback h.length_back
  rw [h.innermost, ← hnames, ← h.metadata] at hcollapsed
  rw [RequestSession.getCollapsedSessionMetadata, hcollapsed, h.innermost]
  rfl

theorem Parted.stands (h : Parted session names front back outer inner) :
    Stands ⟨.GRPC, .ModelInfer⟩ front outer { default with metadata := below {} front outer } :=
  ⟨h.fresh, h.length, rfl, rfl, fun hcached => by cases hcached⟩

/-- The text of the key of a session whose last levels are ignored. -/
theorem Parted.text (h : Parted session names front back outer inner)
    (hnames : names = (session.innermost names).toFinset) :
    session.metadata.createSessionKey names = .ok (levelsText ((session.remaining names).reverse.map fun level =>
      (level, session.metadata.subsessionId level))) := by
  rw [h.createSessionKey hnames, createSessionKey_levels h.fresh h.length, h.remaining]
  congr 2
  apply List.map_congr_left
  intro level hm
  rw [NodeSessionMetadata.subsessionId, NodeSessionMetadata.subsessionId, h.subsessionId]
  rw [h.remaining]
  exact List.mem_reverse.mp hm

end Parted

/-- Names that are not those of the last levels: one is no level at all, or one of the last levels is not named. -/
theorem Stands.misses {context : ExecutionContext} {levels : List (String × Nat)} {index : List Nat}
    {session : RequestSession} (h : Stands context levels index session) {names : Finset String}
    (hnames : names ≠ (session.innermost names).toFinset) :
    (∃ name ∈ names, session.metadata.details.lookup name = none) ∨
      names.card < session.metadata.sessionsLevels.length ∧ ∃ level,
        level ∈ session.metadata.sessionsLevels.reverse.take names.card ∧ level ∉ names := by
  by_cases hknown : ∃ name ∈ names, session.metadata.details.lookup name = none
  · exact Or.inl hknown
  · right
    have hnodup : session.metadata.sessionsLevels.Nodup := by
      rw [h.sessionsLevels]
      exact h.fresh.nodup
    have hsub : names ⊆ session.metadata.sessionsLevels.toFinset := by
      intro name hname
      rw [List.mem_toFinset, h.sessionsLevels, ← h.details]
      by_contra hnone
      exact hknown ⟨name, hname, lookup_eq_none.mpr hnone⟩
    have hle := Finset.card_le_card hsub
    rw [List.toFinset_card_of_nodup hnodup] at hle
    have hcard : (session.innermost names).toFinset.card = names.card := by
      rw [RequestSession.innermost, List.toFinset_card_of_nodup (hnodup.sublist (List.drop_sublist _ _)),
        List.length_drop]
      omega
    obtain ⟨level, hlevel, hout⟩ : ∃ level ∈ session.innermost names, level ∉ names := by
      by_contra hall
      push Not at hall
      apply hnames
      symm
      apply Finset.eq_of_subset_of_card_le
      · intro level hlevel
        exact hall level (List.mem_toFinset.mp hlevel)
      · rw [hcard]
    refine ⟨?_, level, ?_, hout⟩
    · apply lt_of_le_of_ne hle
      intro heq
      apply hout
      have hsame : names = session.metadata.sessionsLevels.toFinset := by
        apply Finset.eq_of_subset_of_card_le hsub
        rw [List.toFinset_card_of_nodup hnodup, heq]
      rw [hsame]
      exact List.mem_toFinset.mpr (List.mem_of_mem_drop hlevel)
    · rw [List.take_reverse, List.mem_reverse]
      exact hlevel

theorem Stands.refused {context : ExecutionContext} {levels : List (String × Nat)} {index : List Nat}
    {session : RequestSession} (h : Stands context levels index session) {names : Finset String}
    (hsome : names.Nonempty) (hlevels : session.metadata.sessionsLevels ≠ [])
    (hnames : names ≠ (session.innermost names).toFinset) :
    (∃ message, (session.getSessionKey names).1 = .error message) ∧
      ∃ message, session.getCollapsedSessionMetadata names = .error message := by
  have hdetails : ¬ session.metadata.details.isEmpty = true := by
    intro hnil
    rw [List.isEmpty_iff] at hnil
    have hfst := h.details
    rw [hnil, ← h.sessionsLevels] at hfst
    exact hlevels hfst.symm
  rw [h.fst_getSessionKey, createSessionKey, if_neg hdetails, RequestSession.getCollapsedSessionMetadata,
    NodeSessionMetadata.getCollapsedSessionMetadata, if_neg (Finset.card_ne_zero.mpr hsome)]
  rcases h.misses hnames with hmissing | ⟨hless, level, hlevel, hout⟩
  · rw [if_pos hmissing, if_pos hmissing]
    exact ⟨⟨_, rfl⟩, ⟨_, rfl⟩⟩
  · constructor
    · split
      next => exact ⟨_, rfl⟩
      next => exact ⟨_, writeLevels_refused hless.le (by simpa using hlevel) hout ""⟩
    · split
      next => exact ⟨_, rfl⟩
      next =>
        have hlifo : session.metadata.inLifoOrder names = false := by
          unfold inLifoOrder
          rw [Bool.or_eq_false_iff, List.all_eq_false]
          exact ⟨decide_eq_false (by omega), level, hlevel, by simpa using hout⟩
        rw [hlifo]
        exact ⟨_, rfl⟩

/-- The key is that of the collapsed session, and that session has lost the context. -/
theorem keysAgree_iff {context : ExecutionContext} {session : RequestSession} (h : Built context session)
    (hlevels : session.metadata.sessionsLevels ≠ []) {names : Finset String} (hsome : names.Nonempty) :
    KeysAgree session names ↔
      (names = (session.innermost names).toFinset → context = ⟨.GRPC, .ModelInfer⟩) := by
  obtain ⟨levels, index, hstands⟩ := h.stands
  obtain ⟨front, back, outer, inner, hparted⟩ := hstands.parted names
  constructor
  · intro hagree hnames
    obtain ⟨collapsed, details, hcollapsed, hkeeps⟩ := hagree.innermost hnames
    rw [hparted.collapse hnames hsome] at hcollapsed
    cases Except.ok.inj hcollapsed
    have hcontext := hkeeps.context
    rw [hstands.context] at hcontext
    exact hcontext.symm
  · intro hcontext
    refine ⟨fun hnames => ⟨_, _, hparted.collapse hnames hsome, ?_⟩, hstands.refused hsome hlevels⟩
    exact {
      key := by
        rw [hstands.fst_getSessionKey, hparted.createSessionKey hnames, hparted.stands.fst_getSessionKey]
      made := ⟨_, by rw [hstands.fst_getSessionKey, hparted.text hnames]⟩
      exact := by
        intro context' other hother hsame
        obtain ⟨levels', index', hstands'⟩ := hother.stands
        obtain ⟨front', back', outer', inner', hparted'⟩ := hstands'.parted names
        have hinnermost : other.innermost names = session.innermost names := by
          rw [RequestSession.innermost, RequestSession.innermost, hsame]
        have hremaining : other.remaining names = session.remaining names := by
          rw [RequestSession.remaining, RequestSession.remaining, hsame]
        rw [hstands.fst_getSessionKey, hstands'.fst_getSessionKey, hparted.text hnames,
          hparted'.text (by rw [hinnermost]; exact hnames), hremaining]
        constructor
        · intro hkey level hm
          exact levelsText_inj (Except.ok.inj hkey) level (List.mem_reverse.mpr hm)
        · intro hids
          congr 2
          apply List.map_congr_left
          intro level hm
          rw [hids level (List.mem_reverse.mp hm)]
      levels := by
        rw [← hparted.remaining]
        exact List.nil_append _
      details := by
        intro level
        rw [← hparted.remaining]
        split
        next hm => exact (hparted.subsessionId hm).symm
        next hm =>
          apply lookup_eq_none.mpr
          show level ∉ (entries front outer).map Prod.fst
          rw [entries_fst hparted.length]
          exact hm
      context := by
        rw [hstands.context, hcontext hnames]
        rfl }

/-- A session of a request below one level. -/
def shard (context : ExecutionContext) : RequestSession where
  metadata := ⟨[("demultiplexer", 0, 2)], ["demultiplexer"]⟩
  context := context

theorem built_shard (context : ExecutionContext) : Built context (shard context) := by
  have hmetas : (root context).generateSubsessions "demultiplexer" 2 = .ok [shard context,
      { shard context with metadata := ⟨[("demultiplexer", 1, 2)], ["demultiplexer"]⟩ }] := by
    simp [generateSubsessions, NodeSessionMetadata.generateSubsessions, root, shard, List.range_succ, Except.map]
  exact .split (.root) hmetas List.mem_cons_self

theorem keysAgree_shard : KeysAgree (shard ⟨.GRPC, .ModelInfer⟩) {"demultiplexer"} :=
  (keysAgree_iff (built_shard _) (by simp [shard]) (Finset.singleton_nonempty _)).mpr fun _ => rfl

/-- A gathering node of a REST request runs as if the request had come by gRPC. -/
theorem context_lost : ¬ ∀ (context : ExecutionContext) (session : RequestSession) (names : Finset String),
    Built context session → session.metadata.sessionsLevels ≠ [] → names.Nonempty → KeysAgree session names := by
  intro hall
  have hagree := hall _ (shard ⟨.REST, .ModelInfer⟩) {"demultiplexer"} (built_shard _) (by simp [shard])
    (Finset.singleton_nonempty _)
  obtain ⟨collapsed, details, hcollapsed, hkeeps⟩ := hagree.innermost (by decide)
  have hcontext : collapsed.context = ⟨.GRPC, .ModelInfer⟩ := by
    unfold getCollapsedSessionMetadata at hcollapsed
    cases hmetadata : (shard ⟨.REST, .ModelInfer⟩).metadata.getCollapsedSessionMetadata {"demultiplexer"} with
    | error message =>
      rw [hmetadata] at hcollapsed
      cases hcollapsed
    | ok pair =>
      rw [hmetadata] at hcollapsed
      cases Except.ok.inj hcollapsed
      rfl
  have hkept := hkeeps.context
  rw [hcontext] at hkept
  cases hkept

end RequestSession

end ModelServer
