import ModelServer.SessionFlow

namespace ModelServer.SessionFlow

open NodeSessionMetadata PipelineDefinition Pipeline

/-- The size of a level: what the demultiplexer is configured with, or what the one session of a dynamic demultiplexer
is split into. -/
def sizeOf (definition : PipelineDefinition) (shards : NodeInfo → NodeSessionMetadata → Nat) (name : String) : Nat :=
  match definition.findNodeByName name with
  | none => 1
  | some node =>
    match node.demultiplyCount with
    | none => 1
    | some count => max 1 (if count = -1 then shards node {} else (count % 2 ^ 64).toNat)

variable {definition : PipelineDefinition} {levels gathered : String → List String} {order names : List String}
  {shards : NodeInfo → NodeSessionMetadata → Nat} {node dependency exit : NodeInfo}
  {metadata arriving : NodeSessionMetadata} {index : List Nat}

theorem sizeOf_pos (definition : PipelineDefinition) (shards : NodeInfo → NodeSessionMetadata → Nat) (name : String) :
    0 < sizeOf definition shards name := by
  unfold sizeOf
  split
  next => omega
  next => split <;> omega

section Sizes

theorem shards_eq (hchecked : Checked definition) (hlevelled : Levelled definition levels gathered)
    (hm : node ∈ definition.nodeInfos) (hkind : node.kind ≠ .EXIT)
    (h : Below (sizeOf definition shards) (levels node.nodeName) metadata index) {results : List NodeSessionMetadata}
    (hresults : Node.resultSessions node metadata (shards node metadata) = .ok results)
    (hsome : node.demultiplyCount.isSome) : shards node metadata = sizeOf definition shards node.nodeName := by
  obtain ⟨count, hcount⟩ := Option.isSome_iff_exists.mp hsome
  obtain ⟨hpos, hshards⟩ := resultSessions_shards hkind hcount hresults
  unfold sizeOf
  rw [hchecked.find hm]
  simp only [hcount]
  by_cases hdynamic : count = -1
  · have hbelow := h.eq_below
    have hwithin := h.within
    rw [hdynamic] at hcount
    rw [hlevelled.dynamic hchecked hm hcount] at hbelow hwithin
    rw [List.forall₂_nil_right_iff.mp hwithin, below_nil] at hbelow
    rw [hbelow] at hpos ⊢
    rw [if_pos hdynamic]
    omega
  · have hfixed := hshards.resolve_left hdynamic
    rw [if_neg hdynamic]
    omega

/-- The sessions of a node are below its levels, of the sizes of the run. -/
theorem Session.exact (h : Session definition (exactly shards) node metadata) (hchecked : Checked definition)
    (hlevelled : Levelled definition levels gathered) :
    ∃ index, Below (sizeOf definition shards) (levels node.nodeName) metadata index := by
  induction h with
  | @entry entry hm hkind =>
    refine ⟨[], ?_⟩
    rw [(hlevelled.entry entry hm hkind).1]
    exact ⟨by simp, .nil, rfl⟩
  | collapsed hsession hsplits hresults harriving hm hconnected hcollapse ih =>
    obtain ⟨index, hbelow⟩ := ih
    rw [hsplits] at hresults
    have hkind := kind_of_connected hchecked hsession.mem hm hconnected
    obtain ⟨index', harrived⟩ := results_below hchecked hlevelled hsession.mem hm hconnected hbelow
      (shards_eq hchecked hlevelled hsession.mem hkind hbelow hresults) hresults harriving
    obtain ⟨above, outer, _, _, _, habove, _, hcollapsed, _⟩ := collapse_below harrived (levels_nodup hlevelled hm)
      (hlevelled.gathers _ hm)
    cases hcollapsed.symm.trans hcollapse
    exact ⟨outer, habove⟩

theorem Arrives.exact (h : Arrives definition (exactly shards) dependency node arriving) (hchecked : Checked definition)
    (hlevelled : Levelled definition levels gathered) :
    ∃ index, Below (sizeOf definition shards) (levels node.nodeName ++ gathered node.nodeName) arriving index := by
  obtain ⟨metadata, n, results, hsession, hsplits, hresults, harriving, hm, hconnected⟩ := h
  obtain ⟨index, hbelow⟩ := hsession.exact hchecked hlevelled
  rw [hsplits] at hresults
  have hkind := kind_of_connected hchecked hsession.mem hm hconnected
  exact results_below hchecked hlevelled hsession.mem hm hconnected hbelow
    (shards_eq hchecked hlevelled hsession.mem hkind hbelow hresults) hresults harriving

end Sizes

section Existence

/-- Demultiplexers with names can split their sessions into any numbers of shards that they accept. -/
theorem splitting_of_counts (hchecked : Checked definition) (hlevelled : Levelled definition levels gathered)
    (hshards : ∀ node ∈ definition.nodeInfos, ∀ count, node.demultiplyCount = some count → node.nodeName ≠ "" ∧
      ∀ metadata, 0 < shards node metadata ∧ shards node metadata ≤ DEMULTIPLY_LIMIT ∧
        (count = -1 ∨ (shards node metadata : Int) = count % 2 ^ 64)) : Splitting definition shards := by
  intro node metadata h hsome
  obtain ⟨count, hcount⟩ := Option.isSome_iff_exists.mp hsome
  obtain ⟨hname, hnumbers⟩ := hshards node h.mem count hcount
  obtain ⟨size, index, hbelow⟩ := h.placed hchecked hlevelled
  unfold Node.resultSessions
  split
  next => exact ⟨_, rfl⟩
  next =>
    rw [hcount]
    simp only
    rw [if_pos (hnumbers metadata)]
    have hfresh : Fresh metadata [(node.nodeName, shards node metadata)] := by
      have hmore := (below_update hbelow (opened_nodup hlevelled h.mem) (shards node metadata)).fresh_more
        (opened_nodup hlevelled h.mem) fun name hm => by
          rw [List.mem_singleton.mp hm]
          exact hname
      simpa [sized] using hmore
    rw [generateSubsessions_eq hfresh]
    exact ⟨_, rfl⟩

/-- Every session that a node can have below its levels. -/
structure Populated (definition : PipelineDefinition) (levels : String → List String)
    (shards : NodeInfo → NodeSessionMetadata → Nat) (node : NodeInfo) : Prop where
  named : ∀ name ∈ levels node.nodeName, name ≠ ""
  sessions : ∀ index, List.Forall₂ (· < ·) index ((levels node.nodeName).map (sizeOf definition shards)) →
    Session definition (exactly shards) node (below {} (sized (sizeOf definition shards) (levels node.nodeName)) index)

theorem zeros_within (definition : PipelineDefinition) (shards : NodeInfo → NodeSessionMetadata → Nat)
    (names : List String) :
    List.Forall₂ (· < ·) (names.map fun _ => 0) (names.map (sizeOf definition shards)) := by
  rw [List.forall₂_map_left_iff, List.forall₂_map_right_iff, List.forall₂_same]
  exact fun name _ => sizeOf_pos definition shards name

theorem exists_results (hsplitting : Splitting definition shards) (hkind : node.kind ≠ .EXIT)
    (h : Session definition (exactly shards) node metadata) :
    ∃ results, Node.resultSessions node metadata (shards node metadata) = .ok results := by
  cases hcount : node.demultiplyCount with
  | none =>
    unfold Node.resultSessions
    rw [if_neg hkind, hcount]
    exact ⟨_, rfl⟩
  | some count => exact hsplitting node metadata h (by rw [hcount]; rfl)

/-- What a session of a dependency is split into. -/
theorem Populated.results (h : Populated definition levels shards dependency) (hchecked : Checked definition)
    (hlevelled : Levelled definition levels gathered) (hsplitting : Splitting definition shards)
    (hm : dependency ∈ definition.nodeInfos) (hkind : dependency.kind ≠ .EXIT)
    (hindex : List.Forall₂ (· < ·) index ((levels dependency.nodeName).map (sizeOf definition shards))) :
    (∀ name ∈ opened dependency, name ≠ "") ∧
      Node.resultSessions dependency (below {} (sized (sizeOf definition shards) (levels dependency.nodeName)) index)
        (shards dependency (below {} (sized (sizeOf definition shards) (levels dependency.nodeName)) index)) =
      .ok ((RowMajor.indexes ((opened dependency).map (sizeOf definition shards))).map
        (below (below {} (sized (sizeOf definition shards) (levels dependency.nodeName)) index)
          (sized (sizeOf definition shards) (opened dependency)))) := by
  have hbelow : Below (sizeOf definition shards) (levels dependency.nodeName) _ index := ⟨h.named, hindex, rfl⟩
  obtain ⟨results, hresults⟩ := exists_results hsplitting hkind (h.sessions index hindex)
  obtain ⟨hnamed, rfl⟩ := resultSessions_ok hbelow (opened_nodup hlevelled hm) hkind
    (shards_eq hchecked hlevelled hm hkind hbelow hresults) hresults
  exact ⟨hnamed, hresults⟩

/-- A dependency delivers every shard of every session of a node. -/
theorem Populated.arrives (h : Populated definition levels shards dependency) (hchecked : Checked definition)
    (hlevelled : Levelled definition levels gathered) (hsplitting : Splitting definition shards)
    (hin : dependency ∈ definition.nodeInfos) (hm : node ∈ definition.nodeInfos)
    (hconnected : dependency.nodeName ∈ definition.connectedTo node.nodeName) :
    (∀ name ∈ levels node.nodeName ++ gathered node.nodeName, name ≠ "") ∧ ∀ index,
      List.Forall₂ (· < ·) index ((levels node.nodeName ++ gathered node.nodeName).map (sizeOf definition shards)) →
      Arrives definition (exactly shards) dependency node
        (below {} (sized (sizeOf definition shards) (levels node.nodeName ++ gathered node.nodeName)) index) := by
  have hkind := kind_of_connected hchecked hin hm hconnected
  rw [← levels_connected hchecked hlevelled hin hm hconnected]
  have hopened := (h.results hchecked hlevelled hsplitting hin hkind (zeros_within definition shards _)).1
  have hnamed : ∀ name ∈ levels dependency.nodeName ++ opened dependency, name ≠ "" := by
    intro name hname
    rcases List.mem_append.mp hname with hname | hname
    · exact h.named name hname
    · exact hopened name hname
  refine ⟨hnamed, fun index hindex => ?_⟩
  have hbelow : Below (sizeOf definition shards) (levels dependency.nodeName ++ opened dependency) _ index :=
    ⟨hnamed, hindex, rfl⟩
  obtain ⟨outer, inner, _, houter, hinner, heq⟩ := hbelow.split
  refine ⟨_, _, _, h.sessions outer houter.within, rfl,
    (h.results hchecked hlevelled hsplitting hin hkind houter.within).2, ?_, hm, hconnected⟩
  rw [heq]
  exact List.mem_map.mpr ⟨inner, RowMajor.mem_indexes_of_lt hinner, rfl⟩

theorem populated (hchecked : Checked definition) (hlevelled : Levelled definition levels gathered)
    (hacyclic : Acyclic definition exit.nodeName order) (hfed : Fed definition) (hsplitting : Splitting definition shards)
    (hm : node ∈ definition.nodeInfos) : Populated definition levels shards node := by
  generalize hrank : DependencyOrder.rank order node.nodeName = n
  induction n using Nat.strongRecOn generalizing node with
  | ind n ih =>
    by_cases hkind : node.kind = .ENTRY
    · have hlevels := (hlevelled.entry node hm hkind).1
      refine ⟨by simp [hlevels], fun index hindex => ?_⟩
      rw [hlevels] at hindex ⊢
      rw [List.forall₂_nil_right_iff.mp hindex, below_nil]
      exact .entry hm hkind
    · obtain ⟨name, hdependency⟩ := List.exists_mem_of_ne_nil _ (hfed node hm hkind)
      obtain ⟨dependency, hfound, _⟩ := hchecked.dependencies node hm name hdependency
      obtain ⟨hin, rfl⟩ := findNodeByName_mem hfound
      have hlt := hacyclic.ordered.rank_lt (hacyclic.names node hm).1 hdependency
      obtain ⟨hnamed, harrives⟩ := (ih _ (hrank ▸ hlt) hin rfl).arrives hchecked hlevelled hsplitting hin hm hdependency
      refine ⟨fun name hname => hnamed name (List.mem_append_left _ hname), fun index hindex => ?_⟩
      -- any shard of the session will do
      have hwithin : List.Forall₂ (· < ·) (index ++ (gathered node.nodeName).map fun _ => 0)
          ((levels node.nodeName ++ gathered node.nodeName).map (sizeOf definition shards)) := by
        rw [List.map_append]
        exact List.rel_append hindex (zeros_within definition shards _)
      have hbelow : Below (sizeOf definition shards) (levels node.nodeName ++ gathered node.nodeName) _ _ :=
        ⟨hnamed, hwithin, rfl⟩
      obtain ⟨above, outer, inner, hindexes, hinner, habove, _, hcollapse, _⟩ := collapse_below hbelow
        (levels_nodup hlevelled hm) (hlevelled.gathers node hm)
      have hlength : index.length = outer.length := by
        rw [hindex.length_eq, habove.within.length_eq]
      have houter := (List.append_inj hindexes hlength).1
      have hsession := (harrives _ hwithin).session hcollapse
      rw [habove.eq_below, ← houter] at hsession
      exact hsession

end Existence

section Complete

theorem Arrives.key_unique {dependency' : NodeInfo} {arriving' : NodeSessionMetadata}
    (h : Arrives definition (exactly shards) dependency node arriving)
    (h' : Arrives definition (exactly shards) dependency' node arriving') (hchecked : Checked definition)
    (hlevelled : Levelled definition levels gathered)
    (hkey : arriving.createSessionKey node.gatherFromNode = arriving'.createSessionKey node.gatherFromNode) :
    collapse node arriving = collapse node arriving' := by
  obtain ⟨_, hbelow⟩ := h.exact hchecked hlevelled
  obtain ⟨_, hbelow'⟩ := h'.exact hchecked hlevelled
  obtain ⟨_, _, _, _, _, _, _, hm, _⟩ := h
  have hgathers := hlevelled.gathers node hm
  obtain ⟨above, _, _, _, _, habove, _, hcollapse, _, hsame, _⟩ := collapse_below hbelow (levels_nodup hlevelled hm)
    hgathers
  obtain ⟨above', _, _, _, _, habove', _, hcollapse', _, hsame', _⟩ := collapse_below hbelow'
    (levels_nodup hlevelled hm) hgathers
  have heq : above = above' := by
    apply habove.eq_of_key habove' (List.nodup_append.mp (opened_nodup hlevelled hm)).1
    rw [← hsame, hkey, hsame']
  rw [hcollapse, hcollapse', heq]

/-- The shards that a session gathers, from any of its dependencies. -/
theorem Populated.receives (h : Populated definition levels shards dependency) (hchecked : Checked definition)
    (hlevelled : Levelled definition levels gathered) (hsplitting : Splitting definition shards)
    (hin : dependency ∈ definition.nodeInfos) (hm : node ∈ definition.nodeInfos)
    (hconnected : dependency.nodeName ∈ definition.connectedTo node.nodeName) {session : NodeSessionMetadata}
    {outer ids : List Nat} (hsession : Below (sizeOf definition shards) (levels node.nodeName) session outer)
    (hids : List.Forall₂ (· < ·) ids ((gathered node.nodeName).map (sizeOf definition shards))) :
    ∃! arriving, Arrives definition (exactly shards) dependency node arriving ∧
      collapse node arriving =
        .ok (session, ⟨gathered node.nodeName, (gathered node.nodeName).map (sizeOf definition shards)⟩) ∧
      (gathered node.nodeName).map arriving.subsessionId = ids := by
  obtain ⟨hnamed, harrives⟩ := h.arrives hchecked hlevelled hsplitting hin hm hconnected
  have hbelow := hsession.append (fun name hname => hnamed name (List.mem_append_right _ hname)) hids
  have hgathers := hlevelled.gathers node hm
  refine ⟨_, ⟨hbelow.eq_below ▸ harrives _ hbelow.within, ?_⟩, ?_⟩
  · obtain ⟨above, outer', inner, hindex, hinner, habove, _, hcollapse, hinnerIds, _⟩ := collapse_below hbelow
      (levels_nodup hlevelled hm) hgathers
    have hlength : outer.length = outer'.length := by
      rw [hsession.within.length_eq, habove.within.length_eq]
    obtain ⟨rfl, rfl⟩ := List.append_inj hindex hlength
    rw [hcollapse, habove.eq_below, ← hsession.eq_below]
    exact ⟨rfl, hinnerIds⟩
  · intro arriving harriving
    obtain ⟨harriving, hcollapse, hinner⟩ := harriving
    obtain ⟨_, hbelow'⟩ := harriving.exact hchecked hlevelled
    obtain ⟨above, _, inner, _, _, _, heq, hcollapse', hinner', _⟩ := collapse_below hbelow' (levels_nodup hlevelled hm)
      hgathers
    cases hcollapse.symm.trans hcollapse'
    rw [heq, ← hinner', hinner]

theorem complete (hchecked : Checked definition) (hlevelled : Levelled definition levels gathered)
    (hacyclic : Acyclic definition exit.nodeName order) (hfed : Fed definition)
    (hsplitting : Splitting definition shards) : Complete definition (exactly shards) := by
  refine ⟨fun node dependency dependency' arriving arriving' h h' => h.key_unique h' hchecked hlevelled, ?_, ?_⟩
  · intro dependency node arriving session details h hcollapse other hother
    obtain ⟨_, hbelow⟩ := h.exact hchecked hlevelled
    obtain ⟨_, _, _, _, _, _, _, hm, _⟩ := h
    obtain ⟨above, outer, _, _, _, habove, _, hcollapsed, _⟩ := collapse_below hbelow (levels_nodup hlevelled hm)
      (hlevelled.gathers node hm)
    cases hcollapsed.symm.trans hcollapse
    obtain ⟨info, hfound, _⟩ := hchecked.dependencies node hm other hother
    obtain ⟨hin, rfl⟩ := findNodeByName_mem hfound
    have hpopulated := populated hchecked hlevelled hacyclic hfed hsplitting hin
    exact ⟨info, hfound, fun ids hids => hpopulated.receives hchecked hlevelled hsplitting hin hm hother habove hids⟩
  · intro exit hm hkind metadata
    have hlevels := hlevelled.exit exit hm hkind
    constructor
    · intro h
      obtain ⟨index, hbelow⟩ := h.exact hchecked hlevelled
      rw [hlevels] at hbelow
      rw [hbelow.eq_below, List.forall₂_nil_right_iff.mp hbelow.within, below_nil]
    · rintro rfl
      have hsession := (populated hchecked hlevelled hacyclic hfed hsplitting hm).sessions []
      rw [hlevels, below_nil] at hsession
      exact hsession .nil

end Complete

end ModelServer.SessionFlow
