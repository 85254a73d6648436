import ModelServer.PipelineLevels

namespace ModelServer.PipelineDefinition

/-- The inputs of the models and the libraries of the nodes. A model without inputs is not loaded, and neither is the
metadata of a library that has none. -/
structure NodeInputs where
  inputsInfo : NodeInfo → Finset String
  nonempty : ∀ node, node.kind = .DL ∨ node.kind = .CUSTOM → (inputsInfo node).Nonempty

variable (definition : PipelineDefinition) (inputs : NodeInputs)

/-- The inputs that the connections of a node name. -/
def connectedInputs (node : NodeInfo) : List String :=
  ((definition.connections.lookup node.nodeName).getD []).flatMap (·.2.map Prod.snd)

/-- The inputs of a node that no connection has marked as connected. -/
def remainingUnconnectedDependantInputs (node : NodeInfo) : Finset String :=
  if node.kind = .DL ∨ node.kind = .CUSTOM then inputs.inputsInfo node \ (definition.connectedInputs node).toFinset
  else ∅

def ensureAllModelInputsOfValidatedNodeHaveDataSource (node : NodeInfo) : Except DefinitionStatus Unit :=
  if definition.remainingUnconnectedDependantInputs inputs node = ∅ then .ok ()
  else .error (.metadata "PIPELINE_NOT_ALL_INPUTS_CONNECTED")

/-- The checks of a definition, with any other checks of the metadata of its nodes and connections. -/
def NodeInputs.checks (node : NodeInfo → Except DefinitionStatus Unit)
    (connection : NodeInfo → NodeInfo → Aliases → Except DefinitionStatus Unit) : MetadataChecks where
  node := node
  connection := connection
  inputs := definition.ensureAllModelInputsOfValidatedNodeHaveDataSource inputs

variable {definition inputs} {checks : MetadataChecks}

theorem validateEach_inputs {nodes : List NodeInfo} (h : definition.validateEach checks nodes = .ok ()) :
    ∀ node ∈ nodes, checks.inputs node = .ok () := by
  induction nodes with
  | nil => simp
  | cons first nodes ih =>
    rw [validateEach] at h
    split at h
    next => cases h
    next =>
      split at h
      next => cases h
      next hnode =>
        intro node hm
        rcases List.mem_cons.mp hm with rfl | hm
        · unfold validateNode at hnode
          split at hnode
          next => cases hnode
          next =>
            split at hnode
            next => cases hnode
            next =>
              split at hnode
              next => cases hnode
              next => exact hnode
        · exact ih h node hm

theorem validateNodes_inputs (h : definition.validateNodes checks = .ok ()) :
    ∀ node ∈ definition.nodeInfos, checks.inputs node = .ok () := by
  unfold validateNodes at h
  simp only at h
  split_ifs at h
  exact validateEach_inputs h

/-- A node of a model or a library has an input, and with it a connection. -/
theorem connectedTo_ne_nil {node : NodeInfo} (hkind : node.kind = .DL ∨ node.kind = .CUSTOM)
    (h : definition.ensureAllModelInputsOfValidatedNodeHaveDataSource inputs node = .ok ()) :
    definition.connectedTo node.nodeName ≠ [] := by
  unfold ensureAllModelInputsOfValidatedNodeHaveDataSource remainingUnconnectedDependantInputs at h
  rw [if_pos hkind] at h
  split at h
  next hnone =>
    obtain ⟨input, hinput⟩ := inputs.nonempty node hkind
    have hconnected := List.mem_toFinset.mp (Finset.sdiff_eq_empty_iff_subset.mp hnone hinput)
    obtain ⟨connection, hm, _⟩ := List.mem_flatMap.mp hconnected
    unfold connectedTo
    exact List.ne_nil_of_mem (List.mem_map.mpr ⟨connection, hm, rfl⟩)
  next => cases h

/-- The exit has a dependency, since the search for cycles finds the other nodes. -/
theorem Acyclic.exit_connected {exit : NodeInfo} {order : List String}
    (h : Acyclic definition exit.nodeName order) (hchecked : Checked definition)
    (hexit : exit ∈ definition.nodeInfos) (hkind : exit.kind = .EXIT) : definition.connectedTo exit.nodeName ≠ [] := by
  intro hnil
  have hself : ∀ name, Leads definition exit.nodeName name → name = exit.nodeName := by
    intro name hleads
    induction hleads with
    | exit => rfl
    | back _ hdependency ih =>
      rw [ih, hnil] at hdependency
      exact absurd hdependency List.not_mem_nil
  obtain ⟨entry, hentry, hentryKind⟩ := hchecked.entry
  have hname := hself _ (h.names entry hentry).2
  have hsame := List.inj_on_of_nodup_map hchecked.names hentry hexit hname
  rw [hsame, hkind] at hentryKind
  cases hentryKind

/-- Every node but the entry of a definition that has passed its validation has a dependency. -/
theorem Validated.fed {node : NodeInfo → Except DefinitionStatus Unit}
    {connection : NodeInfo → NodeInfo → Aliases → Except DefinitionStatus Unit}
    (h : Validated definition (inputs.checks definition node connection)) : Fed definition := by
  have hchecked := validateNodes_ok h.nodes
  have hinputs := validateNodes_inputs h.nodes
  intro info hm hne
  cases hkind : info.kind with
  | ENTRY => exact absurd hkind hne
  | DL => exact connectedTo_ne_nil (.inl hkind) (hinputs info hm)
  | CUSTOM => exact connectedTo_ne_nil (.inr hkind) (hinputs info hm)
  | EXIT =>
    have hcycles := h.cycles
    unfold validateForCycles at hcycles
    cases hfound : definition.nodeInfos.find? (·.kind = .EXIT) with
    | none =>
      rw [hfound] at hcycles
      cases hcycles
    | some exit =>
      rw [hfound] at hcycles
      have hexit : exit ∈ definition.nodeInfos := List.mem_of_find?_eq_some hfound
      have hexitKind : exit.kind = .EXIT := by simpa using List.find?_some hfound
      obtain ⟨order, hacyclic⟩ := validateForCycles_ok hchecked hexit hcycles
      rw [hchecked.exits info hm exit hexit hkind hexitKind]
      exact hacyclic.exit_connected hchecked hexit hexitKind

end ModelServer.PipelineDefinition
