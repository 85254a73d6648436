import ModelServer.PipelineDeliveries

namespace ModelServer

@[simp] theorem NodeSession.notifyFinishedDependency_metadata (session : NodeSession) :
    session.notifyFinishedDependency.metadata = session.metadata := by
  rw [notifyFinishedDependency]

@[simp] theorem NodeSession.notifyFinishedDependency_isUsed (session : NodeSession) :
    session.notifyFinishedDependency.isUsed = session.isUsed := by
  rw [notifyFinishedDependency]

namespace NodeSessions

variable {sessions : NodeSessions} {pair key : NodeSessionKeyPair} {session : NodeSession}
  {f : NodeSession → NodeSession}

theorem alter_fst (sessions : NodeSessions) (pair : NodeSessionKeyPair) (f : NodeSession → NodeSession) :
    (sessions.alter pair f).map Prod.fst = sessions.map Prod.fst := by
  simp [alter, Function.comp_def]

theorem mem_alter : (key, session) ∈ sessions.alter pair f ↔
    ∃ old, (key, old) ∈ sessions ∧ session = if key = pair then f old else old := by
  unfold alter
  constructor
  · intro hm
    obtain ⟨⟨other, old⟩, hold, heq⟩ := List.mem_map.mp hm
    obtain ⟨rfl, rfl⟩ := Prod.mk.inj heq
    exact ⟨old, hold, rfl⟩
  · rintro ⟨old, hold, rfl⟩
    exact List.mem_map.mpr ⟨(key, old), hold, rfl⟩

theorem mem_erase : (key, session) ∈ sessions.erase pair ↔ (key, session) ∈ sessions ∧ key ≠ pair := by
  unfold erase
  rw [List.mem_filter]
  simp

theorem erase_fst (sessions : NodeSessions) (pair : NodeSessionKeyPair) :
    ((sessions.erase pair).map Prod.fst).Sublist (sessions.map Prod.fst) :=
  List.filter_sublist.map Prod.fst

theorem mem_fst_erase (h : key ∈ sessions.map Prod.fst) (hne : key ≠ pair) :
    key ∈ (sessions.erase pair).map Prod.fst := by
  obtain ⟨⟨_, session⟩, hm, rfl⟩ := List.mem_map.mp h
  exact List.mem_map.mpr ⟨(_, session), mem_erase.mpr ⟨hm, hne⟩, rfl⟩

end NodeSessions

namespace Pipeline

open NodeSessionMetadata PipelineDefinition

/-- The sessions of the nodes and what has been done with them. -/
structure Records where
  nodeSessions : NodeSessions
  failed : Bool
  executed : List NodeSessionKeyPair
  processed : List NodeSessionKeyPair
  fetched : List (NodeSessionKeyPair × List NodeSessionMetadata)
  handedOver : List (String × String × NodeSessionMetadata)

def State.records {ε : Type} (s : State ε) : Records where
  nodeSessions := s.nodeSessions
  failed := s.firstErrorStatus.isSome
  executed := s.history.executed
  processed := s.history.processed
  fetched := s.history.fetched
  handedOver := s.history.handedOver

/-- What was handed over to a session. -/
def received (definition : PipelineDefinition) (handedOver : List (String × String × NodeSessionMetadata))
    (pair : NodeSessionKeyPair) : List (String × String × NodeSessionMetadata) :=
  handedOver.filter fun handOver => sessionOf definition handOver.2.1 handOver.2.2 = pair

/-- Every session counts what it has not received of its total; the sessions that were executed have received it
all. -/
structure Tracks (definition : PipelineDefinition) (levels gathered : String → List String) (size : String → Nat)
    (r : Records) : Prop where
  keys : (r.nodeSessions.map Prod.fst).Nodup
  sessions : ∀ pair session, (pair, session) ∈ r.nodeSessions →
    ∃ node index, IsSession definition levels size pair node session.metadata index
  counted : ∀ pair session, (pair, session) ∈ r.nodeSessions →
    session.remainingDependencies + (received definition r.handedOver pair).length = total definition gathered size pair.1
  bounded : ∀ pair session, (pair, session) ∈ r.nodeSessions → total definition gathered size pair.1 < sessionIdWord
  used : ∀ pair session, (pair, session) ∈ r.nodeSessions → session.isUsed → pair ∈ r.executed
  executed : ∀ pair ∈ r.executed, ∃ node metadata index, IsSession definition levels size pair node metadata index
  satisfied : ∀ pair ∈ r.executed,
    (received definition r.handedOver pair).length = total definition gathered size pair.1
  delivered : ∀ handOver ∈ r.handedOver, ∃ pair node metadata index inner,
    IsSession definition levels size pair node metadata index ∧
      Delivers definition levels gathered size handOver pair metadata inner
  handedOver_nodup : r.handedOver.Nodup
  kept : ∀ handOver ∈ r.handedOver, sessionOf definition handOver.2.1 handOver.2.2 ∈ r.nodeSessions.map Prod.fst ∨
    sessionOf definition handOver.2.1 handOver.2.2 ∈ r.executed
  origin : ∀ handOver ∈ r.handedOver, ∃ pair results, (pair, results) ∈ r.fetched ∧ pair.1 = handOver.1 ∧
    handOver.2.2 ∈ results
  results : ∀ pair results, (pair, results) ∈ r.fetched →
    ∃ node metadata index, ResultsOf definition levels size pair node metadata index results

variable {definition : PipelineDefinition} {levels gathered : String → List String} {size : String → Nat}
  {r : Records} {pair pair' : NodeSessionKeyPair} {node node' : NodeInfo} {metadata metadata' : NodeSessionMetadata}
  {index index' inner : List Nat} {handOver : String × String × NodeSessionMetadata}
  {results : List NodeSessionMetadata}

section Received

variable {handedOver : List (String × String × NodeSessionMetadata)}

theorem mem_received : handOver ∈ received definition handedOver pair ↔
    handOver ∈ handedOver ∧ sessionOf definition handOver.2.1 handOver.2.2 = pair := by
  unfold received
  rw [List.mem_filter]
  simp

theorem received_append_self (h : sessionOf definition handOver.2.1 handOver.2.2 = pair) :
    received definition (handedOver ++ [handOver]) pair = received definition handedOver pair ++ [handOver] := by
  simp [received, h]

theorem received_append_other (h : sessionOf definition handOver.2.1 handOver.2.2 ≠ pair) :
    received definition (handedOver ++ [handOver]) pair = received definition handedOver pair := by
  simp [received, h]

end Received

section Facts

/-- What a session has received was delivered to it. -/
theorem Tracks.delivers (h : Tracks definition levels gathered size r)
    (hgraph : Graph definition levels gathered size)
    (hsession : IsSession definition levels size pair node metadata index)
    (hm : handOver ∈ received definition r.handedOver pair) :
    ∃ inner, Delivers definition levels gathered size handOver pair metadata inner := by
  obtain ⟨hhanded, htarget⟩ := mem_received.mp hm
  obtain ⟨pair', node', metadata', index', inner, hsession', hdelivers⟩ := h.delivered handOver hhanded
  have heq := hdelivers.sessionOf_eq hgraph hsession'
  rw [htarget] at heq
  subst heq
  obtain rfl := hsession.unique hgraph hsession'
  exact ⟨inner, hdelivers⟩

theorem Tracks.received_nodup (h : Tracks definition levels gathered size r) (pair : NodeSessionKeyPair) :
    (received definition r.handedOver pair).Nodup := h.handedOver_nodup.filter _

/-- A session that was executed gets no more. -/
theorem Tracks.not_executed (h : Tracks definition levels gathered size r)
    (hgraph : Graph definition levels gathered size)
    (hsession : IsSession definition levels size pair node metadata index)
    (hdelivers : Delivers definition levels gathered size handOver pair metadata inner)
    (hnew : handOver ∉ r.handedOver) : pair ∉ r.executed := by
  intro hexecuted
  have hall := (received_le (h.received_nodup pair) fun _ hm => h.delivers hgraph hsession hm).2
    (h.satisfied pair hexecuted) handOver hdelivers.mem_expected
  exact hnew (mem_received.mp hall).1

/-- The results of a session that is fetched have not been handed over. -/
theorem Tracks.not_handedOver (h : Tracks definition levels gathered size r)
    (hgraph : Graph definition levels gathered size) (hkind : node.kind ≠ .EXIT)
    (hresults : ResultsOf definition levels size pair node metadata index results)
    (hnew : pair ∉ r.fetched.map Prod.fst) {nextNode : String} {result : NodeSessionMetadata}
    (hm : result ∈ results) : (pair.1, nextNode, result) ∉ r.handedOver := by
  intro hhanded
  obtain ⟨pair', results', hfetched, hname, hm'⟩ := h.origin _ hhanded
  obtain ⟨node', metadata', index', hresults'⟩ := h.results pair' results' hfetched
  obtain rfl := hresults.eq_of_mem hgraph hkind hname.symm hresults' hm hm'
  exact hnew (List.mem_map.mpr ⟨(pair, results'), hfetched, rfl⟩)

end Facts

section Operations

/-- The session of a node is erased. -/
theorem Tracks.erase (h : Tracks definition levels gathered size r) (hexecuted : pair ∈ r.executed) :
    Tracks definition levels gathered size { r with nodeSessions := r.nodeSessions.erase pair } := by
  refine { h with
    keys := h.keys.sublist (NodeSessions.erase_fst _ _)
    sessions := fun other session hm => h.sessions other session (NodeSessions.mem_erase.mp hm).1
    counted := fun other session hm => h.counted other session (NodeSessions.mem_erase.mp hm).1
    bounded := fun other session hm => h.bounded other session (NodeSessions.mem_erase.mp hm).1
    used := fun other session hm => h.used other session (NodeSessions.mem_erase.mp hm).1
    kept := ?_ }
  intro handOver hm
  by_cases heq : sessionOf definition handOver.2.1 handOver.2.2 = pair
  · rw [heq]
    exact .inr hexecuted
  · exact (h.kept handOver hm).imp_left fun hkey => NodeSessions.mem_fst_erase hkey heq

theorem Tracks.fetch (h : Tracks definition levels gathered size r)
    (hresults : ResultsOf definition levels size pair node metadata index results) :
    Tracks definition levels gathered size { r with fetched := r.fetched ++ [(pair, results)] } := by
  refine { h with origin := ?_, results := ?_ }
  · intro handOver hm
    obtain ⟨pair', results', hfetched, hrest⟩ := h.origin handOver hm
    exact ⟨pair', results', List.mem_append_left _ hfetched, hrest⟩
  · intro pair' results' hm
    rcases List.mem_append.mp hm with hm | hm
    · exact h.results pair' results' hm
    · obtain ⟨rfl, rfl⟩ := Prod.mk.inj (List.mem_singleton.mp hm)
      exact ⟨node, metadata, index, hresults⟩

/-- A session is created, if it is not there, for a session of a dependency that belongs to it. -/
theorem Tracks.create (h : Tracks definition levels gathered size r)
    (hsession : IsSession definition levels size pair node metadata index)
    (hexecuted : pair ∉ r.executed) (hbound : total definition gathered size pair.1 < sessionIdWord) :
    Tracks definition levels gathered size { r with
      nodeSessions := if (r.nodeSessions.lookup pair).isSome then r.nodeSessions
        else r.nodeSessions ++ [(pair, { metadata := metadata
                                         remainingDependencies := total definition gathered size pair.1 })] } := by
  by_cases hlookup : (r.nodeSessions.lookup pair).isSome
  · rw [if_pos hlookup]
    exact h
  rw [if_neg hlookup]
  have hkey : pair ∉ r.nodeSessions.map Prod.fst := by
    intro hm
    obtain ⟨⟨_, session⟩, hin, rfl⟩ := List.mem_map.mp hm
    rw [lookup_of_mem h.keys hin] at hlookup
    exact hlookup rfl
  have hnothing : received definition r.handedOver pair = [] := by
    apply List.eq_nil_iff_forall_not_mem.mpr
    intro handOver hm
    obtain ⟨hhanded, htarget⟩ := mem_received.mp hm
    have hkept := h.kept handOver hhanded
    rw [htarget] at hkept
    exact hkept.elim hkey hexecuted
  have hmem : ∀ {P : NodeSessionKeyPair → NodeSession → Prop},
      (∀ other session, (other, session) ∈ r.nodeSessions → P other session) →
      P pair { metadata := metadata, remainingDependencies := total definition gathered size pair.1 } →
      ∀ other session, (other, session) ∈ r.nodeSessions ++ [(pair,
        { metadata := metadata, remainingDependencies := total definition gathered size pair.1 })] →
      P other session := by
    intro P hold hnew other session hm
    rcases List.mem_append.mp hm with hm | hm
    · exact hold other session hm
    · obtain ⟨rfl, rfl⟩ := Prod.mk.inj (List.mem_singleton.mp hm)
      exact hnew
  refine { h with
    keys := ?_
    sessions := hmem h.sessions ⟨node, index, hsession⟩
    counted := hmem h.counted ?_
    bounded := hmem h.bounded hbound
    used := hmem h.used fun hused => ?_
    kept := ?_ }
  · show ((r.nodeSessions ++ [(pair, _)]).map Prod.fst).Nodup
    rw [List.map_append, List.nodup_append]
    refine ⟨h.keys, List.nodup_singleton _, ?_⟩
    rintro other hm _ hpair rfl
    have heq : other = pair := List.mem_singleton.mp hpair
    exact hkey (heq ▸ hm)
  · show total definition gathered size pair.1 + (received definition r.handedOver pair).length = _
    rw [hnothing]
    rfl
  · cases hused
  · intro handOver hm
    apply (h.kept handOver hm).imp_left
    intro hin
    show _ ∈ (r.nodeSessions ++ [(pair, _)]).map Prod.fst
    rw [List.map_append]
    exact List.mem_append_left _ hin

/-- A session of a dependency is counted. -/
theorem Tracks.notify (h : Tracks definition levels gathered size r)
    (hgraph : Graph definition levels gathered size)
    (hsession : IsSession definition levels size pair node metadata index)
    (hdelivers : Delivers definition levels gathered size handOver pair metadata inner)
    (hkey : pair ∈ r.nodeSessions.map Prod.fst) (hexecuted : pair ∉ r.executed) (hnew : handOver ∉ r.handedOver)
    (horigin : ∃ pair' results, (pair', results) ∈ r.fetched ∧ pair'.1 = handOver.1 ∧ handOver.2.2 ∈ results) :
    Tracks definition levels gathered size { r with
      nodeSessions := r.nodeSessions.alter pair NodeSession.notifyFinishedDependency
      handedOver := r.handedOver ++ [handOver] } := by
  have htarget := hdelivers.sessionOf_eq hgraph hsession
  have hnodup : (r.handedOver ++ [handOver]).Nodup := by
    rw [List.nodup_append]
    refine ⟨h.handedOver_nodup, List.nodup_singleton _, ?_⟩
    rintro other hm _ heq rfl
    exact hnew (List.mem_singleton.mp heq ▸ hm)
  have hroom : (received definition r.handedOver pair).length + 1 ≤ total definition gathered size pair.1 := by
    have hreceived : (received definition r.handedOver pair ++ [handOver]).Nodup := by
      rw [← received_append_self htarget]
      exact hnodup.filter _
    have hall : ∀ other ∈ received definition r.handedOver pair ++ [handOver],
        ∃ inner, Delivers definition levels gathered size other pair metadata inner := by
      intro other hm
      rcases List.mem_append.mp hm with hm | hm
      · exact h.delivers hgraph hsession hm
      · rw [List.mem_singleton.mp hm]
        exact ⟨inner, hdelivers⟩
    have hle := (received_le hreceived hall).1
    rwa [List.length_append, List.length_singleton] at hle
  refine { h with
    keys := by
      show ((r.nodeSessions.alter pair _).map Prod.fst).Nodup
      rw [NodeSessions.alter_fst]
      exact h.keys
    sessions := ?_
    counted := ?_
    bounded := ?_
    used := ?_
    satisfied := ?_
    delivered := ?_
    handedOver_nodup := hnodup
    kept := ?_
    origin := ?_ }
  · intro other session hm
    obtain ⟨old, hold, rfl⟩ := NodeSessions.mem_alter.mp hm
    obtain ⟨node', index', hother⟩ := h.sessions other old hold
    refine ⟨node', index', ?_⟩
    split
    next =>
      rw [NodeSession.notifyFinishedDependency_metadata]
      exact hother
    next => exact hother
  · intro other session hm
    obtain ⟨old, hold, rfl⟩ := NodeSessions.mem_alter.mp hm
    have hcounted := h.counted other old hold
    have hbound := h.bounded other old hold
    by_cases heq : other = pair
    · subst heq
      rw [if_pos rfl]
      show NodeSession.remainingDependencies (NodeSession.notifyFinishedDependency old) +
        (received definition (r.handedOver ++ [handOver]) other).length = _
      rw [received_append_self htarget, List.length_append, List.length_singleton]
      have hstep : (old.remainingDependencies + (sessionIdWord - 1)) % sessionIdWord =
          old.remainingDependencies - 1 := by
        unfold sessionIdWord at hbound ⊢
        omega
      show (old.remainingDependencies + (sessionIdWord - 1)) % sessionIdWord + _ = _
      rw [hstep]
      omega
    · rw [if_neg heq]
      show old.remainingDependencies + (received definition (r.handedOver ++ [handOver]) other).length = _
      rw [received_append_other fun hsame => heq (hsame.symm.trans htarget)]
      exact hcounted
  · intro other session hm
    obtain ⟨old, hold, _⟩ := NodeSessions.mem_alter.mp hm
    exact h.bounded other old hold
  · intro other session hm hused
    obtain ⟨old, hold, rfl⟩ := NodeSessions.mem_alter.mp hm
    apply h.used other old hold
    split at hused
    next => rwa [NodeSession.notifyFinishedDependency_isUsed] at hused
    next => exact hused
  · intro other hm
    show (received definition (r.handedOver ++ [handOver]) other).length = _
    rw [received_append_other]
    · exact h.satisfied other hm
    · rintro rfl
      exact hexecuted (htarget ▸ hm)
  · intro other hm
    rcases List.mem_append.mp hm with hm | hm
    · exact h.delivered other hm
    · rw [List.mem_singleton.mp hm]
      exact ⟨pair, node, metadata, index, inner, hsession, hdelivers⟩
  · intro other hm
    show _ ∈ (r.nodeSessions.alter pair _).map Prod.fst ∨ _
    rw [NodeSessions.alter_fst]
    rcases List.mem_append.mp hm with hm | hm
    · exact h.kept other hm
    · rw [List.mem_singleton.mp hm, htarget]
      exact .inl hkey
  · intro other hm
    rcases List.mem_append.mp hm with hm | hm
    · exact h.origin other hm
    · rw [List.mem_singleton.mp hm]
      exact horigin

/-- A session that has received all is executed. -/
theorem Tracks.call (h : Tracks definition levels gathered size r)
    (hsession : IsSession definition levels size pair node metadata index)
    (hall : (received definition r.handedOver pair).length = total definition gathered size pair.1) :
    Tracks definition levels gathered size { r with executed := r.executed ++ [pair] } := by
  refine { h with
    used := fun other session hm hused => List.mem_append_left _ (h.used other session hm hused)
    executed := ?_
    satisfied := ?_
    kept := fun handOver hm => (h.kept handOver hm).imp_right fun hm => List.mem_append_left _ hm }
  · intro other hm
    rcases List.mem_append.mp hm with hm | hm
    · exact h.executed other hm
    · rw [List.mem_singleton.mp hm]
      exact ⟨node, metadata, index, hsession⟩
  · intro other hm
    rcases List.mem_append.mp hm with hm | hm
    · exact h.satisfied other hm
    · rw [List.mem_singleton.mp hm]
      exact hall

/-- The inputs of a session that was executed are used. -/
theorem Tracks.use (h : Tracks definition levels gathered size r) (hexecuted : pair ∈ r.executed) :
    Tracks definition levels gathered size { r with
      nodeSessions := r.nodeSessions.alter pair NodeSession.getInputs } := by
  refine { h with
    keys := by
      show ((r.nodeSessions.alter pair _).map Prod.fst).Nodup
      rw [NodeSessions.alter_fst]
      exact h.keys
    sessions := ?_
    counted := ?_
    bounded := ?_
    used := ?_
    kept := ?_ }
  · intro other session hm
    obtain ⟨old, hold, rfl⟩ := NodeSessions.mem_alter.mp hm
    obtain ⟨node', index', hother⟩ := h.sessions other old hold
    refine ⟨node', index', ?_⟩
    split <;> exact hother
  · intro other session hm
    obtain ⟨old, hold, rfl⟩ := NodeSessions.mem_alter.mp hm
    have hcounted := h.counted other old hold
    split <;> exact hcounted
  · intro other session hm
    obtain ⟨old, hold, _⟩ := NodeSessions.mem_alter.mp hm
    exact h.bounded other old hold
  · intro other session hm hused
    obtain ⟨old, hold, rfl⟩ := NodeSessions.mem_alter.mp hm
    by_cases heq : other = pair
    · rw [heq]
      exact hexecuted
    · rw [if_neg heq] at hused
      exact h.used other old hold hused
  · intro handOver hm
    show _ ∈ (r.nodeSessions.alter pair _).map Prod.fst ∨ _
    rw [NodeSessions.alter_fst]
    exact h.kept handOver hm

end Operations

end Pipeline

end ModelServer
