import ModelServer.StreamedToolParser
import ModelServer.Loop

namespace ModelServer

section Arguments

/-- A call under construction: its name and the members of its arguments. -/
structure MarkupFunctool where
  name : Str := []
  argumentsAsDocument : List (Str × Json) := []

namespace MarkupFunctool

/-- The first value of a key stays. -/
def addMemberOnce (f : MarkupFunctool) (key : Str) (value : Json) : MarkupFunctool :=
  if f.argumentsAsDocument.any (·.1 == key) then f
  else { f with argumentsAsDocument := f.argumentsAsDocument ++ [(key, value)] }

def argumentsAsString (rj : RapidJson) (f : MarkupFunctool) : Str := cStr (rj.write (Json.obj f.argumentsAsDocument).events)

theorem addMemberOnce_name (f : MarkupFunctool) (key : Str) (value : Json) : (f.addMemberOnce key value).name = f.name := by
  unfold addMemberOnce
  split
  · rfl
  · rfl

end MarkupFunctool

def enforceStringValue (rj : RapidJson) : Json → Json
  | .str s => .str s
  | value => .str (rj.write value.events)

/-- The value as it is parsed: booleans normalized before, and strings made of what is declared a string. -/
def typedValue (rj : RapidJson) (expectedType : ParameterType) (value : Str) : Option Json :=
  (rj.document (cStr value)).map fun parsed => if expectedType = .string then enforceStringValue rj parsed else parsed

def replaceSingleWithDoubleQuotes : Bool → Bool → Str → Str
  | _, _, [] => []
  | insideDoubleQuote, insideSingleQuote, [c] =>
    if c = char '"' ∧ !insideSingleQuote then [c]
    else if c = char '\'' ∧ !insideDoubleQuote then [char '"']
    else [c]
  | insideDoubleQuote, insideSingleQuote, c :: next :: rest =>
    if c = char '\\' then c :: next :: replaceSingleWithDoubleQuotes insideDoubleQuote insideSingleQuote rest
    else if c = char '"' ∧ !insideSingleQuote then
      c :: replaceSingleWithDoubleQuotes (!insideDoubleQuote) insideSingleQuote (next :: rest)
    else if c = char '\'' ∧ !insideDoubleQuote then
      char '"' :: replaceSingleWithDoubleQuotes insideDoubleQuote (!insideSingleQuote) (next :: rest)
    else c :: replaceSingleWithDoubleQuotes insideDoubleQuote insideSingleQuote (next :: rest)

end Arguments

section Search

open Occurrence

variable {ds : Delimiters Byte} {text m m' : Str} {pos i : Nat}

theorem find_eq_indexOf (text tag : Str) (pos : Nat) : find text tag pos = (indexOf? tag (text.drop pos)).map (pos + ·) := rfl

/-- The delimiter that comes first is found. -/
theorem find_earliest (h : Earliest ds (text.drop pos) m i) : find text m pos = some (pos + i) := by
  rw [find_eq_indexOf, h.indexOf?_eq]
  rfl

/-- Another delimiter is found later or not at all. -/
theorem find_later (h : Earliest ds (text.drop pos) m i) (hm' : m' ∈ ds.marks) (hne : m' ≠ m) :
    find text m' pos = none ∨ ∃ j, i < j ∧ find text m' pos = some (pos + j) := by
  rw [find_eq_indexOf]
  obtain hnone | ⟨j, hlt, hsome⟩ := h.indexOf?_other hm' hne
  · exact .inl (by rw [hnone]; rfl)
  · exact .inr ⟨j, hlt, by rw [hsome]; rfl⟩

theorem find_quiet (h : ∀ m ∈ ds.marks, ∀ i, ¬ At m (text.drop pos) i) (hm : m ∈ ds.marks) : find text m pos = none := by
  rw [find_eq_indexOf, (indexOf?_eq_none_iff (ds.nonempty m hm)).mpr (h m hm)]
  rfl

end Search

section Walking

open Occurrence DelimitedWalk
open Qwen3CoderToolParser.Impl (orNullopt)

variable {ι σ : Type} {body : ι × List ToolCall → (ι × List ToolCall) ⊕ (ι × List ToolCall)}
  {w : DelimitedWalk σ Byte (Str × Str)} {core : ι → σ} {unread : ι → Str} {Sound : ι → Prop}

/-- A loop that leaves where no delimiter is in the unread text, and passes the one that comes first. -/
structure PassesDelimiters (body : ι × List ToolCall → (ι × List ToolCall) ⊕ (ι × List ToolCall))
    (w : DelimitedWalk σ Byte (Str × Str)) (core : ι → σ) (unread : ι → Str) (Sound : ι → Prop) : Prop where
  waits : ∀ {p : ι}, Sound p → w.Quiet (core p) (unread p) → ∀ calls, body (p, calls) = .inr (p, calls)
  passes : ∀ {p : ι} {m : Str} {i : Nat}, Sound p → Earliest (w.delimiters (core p)) (unread p) m i → ∀ calls,
    ∃ q new, (∀ r, Loop.Exits body (q, calls ++ new) r → Loop.Exits body (p, calls) r) ∧ Sound q ∧
      core q = (w.fire (core p) ((unread p).take i) m).1 ∧ unread q = (unread p).drop (i + m.length) ∧
      new.map ToolCall.invocation = (w.fire (core p) ((unread p).take i) m).2

theorem PassesDelimiters.exits (h : PassesDelimiters body w core unread Sound) {s t : σ} {text rest : Str} {out : List (Str × Str)}
    (hreads : w.Reads s text t rest out) {p : ι} (hp : Sound p) (hcore : core p = s) (hunread : unread p = text) (calls : List ToolCall) :
    ∃ q new, Loop.Exits body (p, calls) (q, calls ++ new) ∧ Sound q ∧ core q = t ∧ unread q = rest ∧
      new.map ToolCall.invocation = out := by
  induction hreads generalizing p calls with
  | waits hquiet =>
    subst hcore hunread
    exact ⟨p, [], .leave (by rw [List.append_nil]; exact h.waits hp hquiet calls), hp, rfl, rfl, rfl⟩
  | passes hfirst _ ih =>
    subst hcore hunread
    obtain ⟨q, new, hexits, hq, hqcore, hqunread, hnew⟩ := h.passes hp hfirst calls
    obtain ⟨q', new', hexits', hq', hcore', hunread', hnew'⟩ := ih hq hqcore hqunread (calls ++ new)
    refine ⟨q', new ++ new', ?_, hq', hcore', hunread', ?_⟩
    · rw [← List.append_assoc]
      exact hexits _ hexits'
    · rw [List.map_append, hnew, hnew']

/-- What a loop that passes delimiters leaves of a text. -/
theorem PassesDelimiters.reads (h : PassesDelimiters body w core unread Sound) {p : ι} {result : ι × List ToolCall}
    (hresult : Loop.Exits body (p, []) result) (hp : Sound p) {t : σ} {rest : Str} {out : List (Str × Str)}
    (hreads : w.Reads (core p) (unread p) t rest out) :
    Option.map (List.map ToolCall.invocation) (orNullopt result.2) = orNullopt out ∧ Sound result.1 ∧ core result.1 = t ∧
      unread result.1 = rest := by
  obtain ⟨q, new, hexits, hq, hcore, hunread, hnew⟩ := h.exits hreads hp rfl rfl []
  obtain rfl := hresult.unique hexits
  refine ⟨?_, hq, hcore, hunread⟩
  rw [← hnew, List.nil_append]
  cases new with
  | nil => rfl
  | cons => rfl

/-- The legs of calls: from a state without a call they lead back to one, and the name of the call is known after the first
legs of it. -/
structure CallLegs {σ : Type} (w : DelimitedWalk σ Byte (Str × Str)) (nameOf : σ → Str) (κ : Type) where
  legs : κ → List (Str × Str)
  opening : Nat
  invocation : κ → Str × Str
  Idle : σ → Prop
  unnamed : ∀ {s}, Idle s → nameOf s = []
  nonempty : ∀ call, legsText (legs call) ≠ []
  opening_le : ∀ call, opening ≤ (legs call).length
  walks : ∀ {s}, Idle s → ∀ call, ∃ t, Idle t ∧ w.Walks s (legs call) t [invocation call]
  within : ∀ {s u call part missing out}, Idle s → legs call = part ++ missing → missing ≠ [] → w.Walks s part u out →
    out = [] ∧ nameOf u = if opening ≤ part.length then (invocation call).1 else []

namespace CallLegs

variable {nameOf : σ → Str} {κ : Type} (calls : CallLegs w nameOf κ)

theorem walks_all {s : σ} (hs : calls.Idle s) (written : List κ) :
    ∃ t, calls.Idle t ∧ w.Walks s (written.flatMap calls.legs) t (written.map calls.invocation) := by
  induction written generalizing s with
  | nil => exact ⟨s, hs, .stays s⟩
  | cons call written ih =>
    obtain ⟨t, ht, hcall⟩ := calls.walks hs call
    obtain ⟨u, hu, hlater⟩ := ih ht
    exact ⟨u, hu, hcall.append hlater⟩

/-- The calls of a text, after which no call begins. -/
noncomputable def spoken {s : σ} (hs : calls.Idle s) (written : List κ) (tail : Str)
    (htail : ∀ {t}, calls.Idle t → w.Quiet t tail) : SpokenCalls w nameOf κ where
  written := written
  legs := calls.legs
  opening := calls.opening
  tail := tail
  initial := s
  final := (calls.walks_all hs written).choose
  calls := written.map calls.invocation
  walks := (calls.walks_all hs written).choose_spec.2
  quiet := htail (calls.walks_all hs written).choose_spec.1
  length_eq := List.length_map _
  nonempty := fun call _ => calls.nonempty call
  opening_le := fun call _ => calls.opening_le call
  closed := calls.unnamed (calls.walks_all hs written).choose_spec.1
  within := by
    intro j part missing u out hj hpart hne hwalk
    obtain ⟨t, o, o', hbefore, hinner, rfl⟩ := hwalk.split
    obtain ⟨t', ht', hidle⟩ := calls.walks_all hs (written.take j)
    obtain ⟨rfl, rfl⟩ := hbefore.unique hidle
    obtain ⟨rfl, hname⟩ := calls.within ht' hpart hne hinner
    refine ⟨by rw [List.append_nil, List.map_take], ?_⟩
    rw [hname, List.getElem?_map, List.getElem?_eq_getElem hj]
    rfl

theorem text_ne_nil {s : σ} (hs : calls.Idle s) {written : List κ} (hne : written ≠ []) (tail : Str)
    (htail : ∀ {t}, calls.Idle t → w.Quiet t tail) : (calls.spoken hs written tail htail).text ≠ [] := by
  intro htext
  have hlegs : legsText (written.flatMap calls.legs) = [] := (List.append_eq_nil_iff.mp htext).1
  cases written with
  | nil => exact hne rfl
  | cons call written =>
    rw [List.flatMap_cons, legsText_append] at hlegs
    exact calls.nonempty call (List.append_eq_nil_iff.mp hlegs).1

/-- The calls that are written are the calls that the inner parser makes of the whole text, and the published deltas are those
if and only if each of them is named by a chunk before the one that completes it. -/
theorem reassembles {inner : InnerParser ι} (follows : inner.Follows w nameOf) (combines : Bool) (error : String) {p : ι}
    (hsound : follows.Sound p) (hidle : calls.Idle (follows.core p)) (hunread : follows.unread p = []) {written : List κ}
    (hne : written ≠ []) {tail : Str} (htail : ∀ {t}, calls.Idle t → w.Quiet t tail) :
    (((inner.parseChunk p (calls.spoken hidle written tail htail).text).1.getD []).map ToolCall.invocation =
      written.map calls.invocation) ∧
      ∀ chunks : List Str, chunks.flatten = (calls.spoken hidle written tail htail).text → (∀ chunk ∈ chunks, chunk ≠ []) →
        (calls.spoken hidle written tail htail).timeline.OneAtATime chunks →
        ∃ deltas, StreamedToolParser.parseChunks inner combines error ⟨p, {}⟩ chunks = .ok deltas ∧
          (SentDeltas.Reassembles (written.map calls.invocation) (toolCallDeltas deltas) ↔
            ∀ i < written.length, (combines = true ∧ i = 0) ∨
              (calls.spoken hidle written tail htail).timeline.NamedBefore chunks i) := by
  have hwhole := InnerParser.Follows.parseChunk_whole hsound rfl hunread (calls.text_ne_nil hidle hne tail htail)
  refine ⟨?_, fun chunks htext hchunks hone => ?_⟩
  · have hsome : orNullopt (written.map calls.invocation) = some (written.map calls.invocation) := by
      cases written with
      | nil => exact absurd rfl hne
      | cons => rfl
    obtain ⟨found, hfound, hmap⟩ := Option.map_eq_some_iff.mp (hwhole.trans hsome)
    rw [hfound]
    exact hmap
  · obtain ⟨deltas, hdeltas, hiff⟩ := StreamedToolParser.parseChunks_reassembles combines error hsound rfl hunread htext hchunks hone
    refine ⟨deltas, hdeltas, ?_⟩
    have hlength : (calls.spoken hidle written tail htail).calls.length = written.length := List.length_map _
    rw [← hlength]
    exact hiff

end CallLegs

end Walking

section Written

/-- What lacks something of a list that ends in an item is a part of the items before. -/
theorem prefix_of_lacking {β : Type} {items part missing : List β} {last : β} (h : items ++ [last] = part ++ missing)
    (hne : missing ≠ []) : part <+: items := by
  have hpart : part <+: items ++ [last] := ⟨missing, h.symm⟩
  obtain hall | hpart := List.prefix_concat_iff.mp hpart
  · rw [hall, List.self_eq_append_right] at h
    exact absurd h hne
  · exact hpart

/-- The tags of a call with parameters. -/
structure MarkupTags where
  parameterStart : Str
  nameEnd : Str
  parameterEnd : Str
  functionEnd : Str

/-- A parameter as it is written, after a text that neither begins another one nor ends the function. -/
structure WrittenParameter (tags : MarkupTags) where
  gap : Str := []
  key : Str
  value : Str
  gap_quiet : ¬ tags.parameterStart <:+: gap ∧ ¬ tags.functionEnd <:+: gap
  key_quiet : ¬ tags.nameEnd <:+: key
  value_quiet : ¬ tags.parameterEnd <:+: value

namespace WrittenParameter

variable {tags : MarkupTags}

def legs (parameter : WrittenParameter tags) : List (Str × Str) :=
  [(parameter.gap, tags.parameterStart), (parameter.key, tags.nameEnd), (parameter.value, tags.parameterEnd)]

theorem mark_of_mem {parameters : List (WrittenParameter tags)} {gap m : Str} (h : (gap, m) ∈ parameters.flatMap legs) :
    m = tags.parameterStart ∨ m = tags.nameEnd ∨ m = tags.parameterEnd := by
  obtain ⟨parameter, -, hmem⟩ := List.mem_flatMap.mp h
  simp only [legs, List.mem_cons, Prod.mk.injEq, List.not_mem_nil, or_false] at hmem
  exact hmem.imp And.right (Or.imp And.right And.right)

end WrittenParameter

/-- The parameters are added one after the other. -/
def MarkupFunctool.addParameters {tags : MarkupTags} (add : MarkupFunctool → Str → Str → MarkupFunctool) (f : MarkupFunctool)
    (parameters : List (WrittenParameter tags)) : MarkupFunctool :=
  parameters.foldl (fun f parameter => add f parameter.key parameter.value) f

theorem MarkupFunctool.addParameters_name {tags : MarkupTags} {add : MarkupFunctool → Str → Str → MarkupFunctool}
    (hadd : ∀ f key value, (add f key value).name = f.name) (f : MarkupFunctool) (parameters : List (WrittenParameter tags)) :
    (f.addParameters add parameters).name = f.name := by
  induction parameters generalizing f with
  | nil => rfl
  | cons parameter parameters ih => exact (ih _).trans (hadd f _ _)

theorem walks_parameters {σ : Type} {w : DelimitedWalk σ Byte (Str × Str)} {tags : MarkupTags}
    {add : MarkupFunctool → Str → Str → MarkupFunctool} {Inside : σ → MarkupFunctool → Prop}
    (hone : ∀ {c f}, Inside c f → ∀ parameter : WrittenParameter tags,
      ∃ d, Inside d (add f parameter.key parameter.value) ∧ w.Walks c parameter.legs d [])
    {c : σ} {f : MarkupFunctool} (hc : Inside c f) (parameters : List (WrittenParameter tags)) :
    ∃ d, Inside d (f.addParameters add parameters) ∧ w.Walks c (parameters.flatMap WrittenParameter.legs) d [] := by
  induction parameters generalizing c f with
  | nil => exact ⟨c, hc, .stays c⟩
  | cons parameter parameters ih =>
    obtain ⟨d, hd, hfirst⟩ := hone hc parameter
    obtain ⟨e, he, hlater⟩ := ih hd
    exact ⟨e, he, hfirst.append hlater⟩

end Written

end ModelServer
