import ModelServer.CallArrayCut

/-! The calls that are told of an array of calls. -/

namespace ModelServer.CallArrayParser

section Texts

structure WrittenCall where
  name : Str
  arguments : Str
deriving DecidableEq

def WrittenCall.text (call : WrittenCall) : Str :=
  bytes "\x7b\"name\": \"" ++ call.name ++ bytes "\", \"arguments\": " ++ call.arguments ++ bytes "\x7d"

def arrayText (calls : List WrittenCall) : Str := bytes "[" ++ Json.joined (bytes " ") (calls.map WrittenCall.text) ++ bytes "]"

/-- The calls that come behind another one, and the end of the array. -/
def laterText (calls : List WrittenCall) : Str := (calls.flatMap fun call => 44 :: 32 :: call.text) ++ [93]

theorem WrittenCall.text_eq (call : WrittenCall) : call.text = callStart call.name ++ (call.arguments ++ [125]) := by
  have hopen : bytes "\", \"arguments\": " = 34 :: (bytes ", \"arguments\":" ++ [32]) := rfl
  have hbrace : bytes "\x7d" = [125] := rfl
  rw [WrittenCall.text, callStart, PartialJsonBuilder.argumentsOpen, PartialJsonBuilder.nameText, hopen, hbrace]
  simp only [List.append_assoc, List.cons_append, List.nil_append]

theorem arrayText_nil : arrayText [] = 91 :: laterText [] := rfl

theorem arrayText_cons (call : WrittenCall) (calls : List WrittenCall) : arrayText (call :: calls) = 91 :: (call.text ++ laterText calls) := by
  have hgap : bytes " " = [32] := rfl
  have hbrackets : bytes "[" = [91] ∧ bytes "]" = [93] := ⟨rfl, rfl⟩
  rw [arrayText, List.map_cons, Json.joined, laterText, hgap, hbrackets.1, hbrackets.2, List.flatMap_map]
  simp only [List.append_assoc, List.cons_append, List.nil_append]

theorem laterText_cons (call : WrittenCall) (calls : List WrittenCall) :
    laterText (call :: calls) = 44 :: 32 :: (call.text ++ laterText calls) := by
  rw [laterText, laterText, List.flatMap_cons]
  simp only [List.append_assoc, List.cons_append]

end Texts

section Telling

/-- The deltas of a call: its name comes once, and its arguments in pieces. -/
structure Tells (index : Int) (call : WrittenCall) (deltas : List Delta) : Prop where
  ofCall : ∀ delta ∈ deltas, Delta.OfCall index delta
  name : (toolCallDeltas deltas).filterMap (·.name) = [call.name]
  arguments : (toolCallDeltas deltas).flatMap (·.arguments) = call.arguments

/-- One group of deltas for each call, in order. -/
def TellsAll (index : Int) : List WrittenCall → List Delta → Prop
  | [], deltas => deltas = []
  | call :: calls, deltas => ∃ group later, deltas = group ++ later ∧ Tells index call group ∧ TellsAll (index + 1) calls later

variable {index : Int} {call : WrittenCall} {calls : List WrittenCall} {deltas group later : List Delta}

theorem TellsAll.after (h : TellsAll (index + 1) calls deltas) : ∀ delta ∈ deltas, Delta.After index delta := by
  induction calls generalizing index deltas with
  | nil =>
    rw [TellsAll] at h
    rw [h]
    exact fun delta hdelta => absurd hdelta List.not_mem_nil
  | cons call calls ih =>
    obtain ⟨group, later, rfl, hgroup, hlater⟩ := h
    intro delta hdelta
    rcases List.mem_append.mp hdelta with hdelta | hdelta
    · obtain ⟨told, htold, hindex⟩ := hgroup.ofCall delta hdelta
      exact ⟨told, htold, by omega⟩
    · obtain ⟨told, htold, hindex⟩ := ih hlater delta hdelta
      exact ⟨told, htold, by omega⟩

/-- The arguments that are told of one call. -/
def argumentsOf (index : Int) (deltas : List Delta) : Str :=
  (toolCallDeltas deltas).flatMap fun call => if call.index = index then call.arguments else []

theorem argumentsOf_append (index : Int) (deltas later : List Delta) :
    argumentsOf index (deltas ++ later) = argumentsOf index deltas ++ argumentsOf index later := by
  rw [argumentsOf, toolCallDeltas_append, List.flatMap_append]
  rfl

theorem argumentsOf_ofCall (h : ∀ delta ∈ deltas, Delta.OfCall index delta) :
    argumentsOf index deltas = (toolCallDeltas deltas).flatMap (·.arguments) := by
  induction deltas with
  | nil => rfl
  | cons delta deltas ih =>
    obtain ⟨told, rfl, hindex⟩ := h delta List.mem_cons_self
    have hlater := ih fun d hd => h d (List.mem_cons_of_mem _ hd)
    have hcons (f : ToolCallDelta → Str) : (toolCallDeltas (Delta.toolCall told :: deltas)).flatMap f = f told ++ (toolCallDeltas deltas).flatMap f :=
      rfl
    rw [argumentsOf, hcons, hcons, if_pos hindex, ← hlater]
    rfl

theorem argumentsOf_after (h : ∀ delta ∈ deltas, Delta.After index delta) : argumentsOf index deltas = [] := by
  induction deltas with
  | nil => rfl
  | cons delta deltas ih =>
    obtain ⟨told, rfl, hindex⟩ := h delta List.mem_cons_self
    have hlater := ih fun d hd => h d (List.mem_cons_of_mem _ hd)
    have hcons (f : ToolCallDelta → Str) : (toolCallDeltas (Delta.toolCall told :: deltas)).flatMap f = f told ++ (toolCallDeltas deltas).flatMap f :=
      rfl
    rw [argumentsOf, hcons, if_neg (by omega)]
    exact hlater

theorem TellsAll.arguments (h : TellsAll index (call :: calls) deltas) : argumentsOf index deltas = call.arguments := by
  obtain ⟨group, later, rfl, hgroup, hlater⟩ := h
  rw [argumentsOf_append, argumentsOf_ofCall hgroup.ofCall, argumentsOf_after hlater.after, List.append_nil]
  exact hgroup.arguments

theorem not_after_of_ofCall {delta : Delta} (h : Delta.OfCall index delta) : ¬Delta.After index delta := by
  rintro ⟨told', htold', hlt⟩
  obtain ⟨told, rfl, heq⟩ := h
  cases htold'
  omega

/-- What comes behind the deltas of the first call belongs to the others. -/
theorem TellsAll.rest (hgroup : ∀ delta ∈ group, Delta.OfCall index delta) (hlater : ∀ delta ∈ later, Delta.After index delta)
    (h : TellsAll index (call :: calls) (group ++ later)) : TellsAll (index + 1) calls later := by
  obtain ⟨group', later', heq, hgroup', hlater'⟩ := h
  rcases List.append_eq_append_iff.mp heq with ⟨excess, hover, hsame⟩ | ⟨excess, hover, hsame⟩
  · cases excess with
    | nil =>
      rw [hsame]
      exact hlater'
    | cons delta excess =>
      have hof := hgroup'.ofCall delta (by rw [hover]; exact List.mem_append_right _ List.mem_cons_self)
      exact absurd (hlater delta (by rw [hsame]; exact List.mem_cons_self)) (not_after_of_ofCall hof)
  · cases excess with
    | nil =>
      rw [List.nil_append] at hsame
      rw [← hsame]
      exact hlater'
    | cons delta excess =>
      have hof := hgroup delta (by rw [hover]; exact List.mem_append_right _ List.mem_cons_self)
      exact absurd (hlater'.after delta (by rw [hsame]; exact List.mem_cons_self)) (not_after_of_ofCall hof)

end Telling

section Closing

theorem StaysOpen.of_parts {count : Nat} {text later : Str} (htext : StaysOpen count text)
    (hlater : StaysOpen (count + text.count 123 - text.count 125) later) : StaysOpen count (text ++ later) := by
  intro beginning hbeginning
  rcases List.prefix_or_prefix_of_prefix hbeginning (List.prefix_append text later) with hwithin | ⟨excess, rfl⟩
  · exact htext beginning hwithin
  · have hwhole := htext text List.prefix_rfl
    have hover := hlater excess ((List.prefix_append_right_inj text).mp hbeginning)
    rw [List.count_append, List.count_append]
    omega

/-- A character keeps a brace open, or it is the brace that closes the last one. -/
theorem staysOpen_character {count : Nat} (hcount : 0 < count) {chunk : Str} (h : IsCharacter chunk) :
    StaysOpen count chunk ∨ (chunk = [125] ∧ count = 1) := by
  have hbraceless (hbraces : ∀ c ∈ chunk, c ≠ 123 ∧ c ≠ 125) : StaysOpen count chunk := by
    intro beginning hbeginning
    obtain ⟨-, hclosing⟩ := count_braceless fun c hc => hbraces c (hbeginning.subset hc)
    omega
  rcases h with ⟨c, rfl⟩ | ⟨-, hhigh⟩
  · by_cases hclosing : c = 125
    · subst hclosing
      by_cases hone : count = 1
      · exact Or.inr ⟨rfl, hone⟩
      · left
        intro beginning hbeginning
        have hlength := hbeginning.length_le
        have hbraces := List.count_le_length (a := (125 : Byte)) (l := beginning)
        rw [List.length_singleton] at hlength
        omega
    by_cases hopening : c = 123
    · subst hopening
      left
      intro beginning hbeginning
      have hclosing : beginning.count 125 = 0 := List.count_eq_zero.mpr fun hmem => by
        have hmem := hbeginning.subset hmem
        cases List.mem_singleton.mp hmem
      omega
    · refine Or.inl (hbraceless fun d hd => ?_)
      rw [List.mem_singleton.mp hd]
      exact ⟨hopening, hclosing⟩
  · refine Or.inl (hbraceless fun c hc => ⟨?_, ?_⟩)
    · rintro rfl
      exact absurd (hhigh 123 hc) (by decide)
    · rintro rfl
      exact absurd (hhigh 125 hc) (by decide)

/-- Either a brace stays open, or a first brace closes the last one. -/
theorem staysOpen_or_closes {chunks : List Str} (h : ∀ chunk ∈ chunks, IsCharacter chunk) {count : Nat} (hcount : 0 < count) :
    StaysOpen count chunks.flatten ∨ ∃ before after, chunks = before ++ [125] :: after ∧ StaysOpen count before.flatten ∧
      count + before.flatten.count 123 - before.flatten.count 125 = 1 := by
  induction chunks generalizing count with
  | nil =>
    left
    intro beginning hbeginning
    rw [List.prefix_nil.mp hbeginning]
    exact hcount
  | cons chunk chunks ih =>
    rcases staysOpen_character hcount (h chunk List.mem_cons_self) with hopen | ⟨rfl, rfl⟩
    · have hstill := hopen chunk List.prefix_rfl
      rcases ih (fun x hx => h x (List.mem_cons_of_mem chunk hx)) (show 0 < count + chunk.count 123 - chunk.count 125 by omega) with
        hlater | ⟨before, after, rfl, hbefore, hone⟩
      · exact Or.inl (hopen.of_parts hlater)
      · refine Or.inr ⟨chunk :: before, after, rfl, hopen.of_parts hbefore, ?_⟩
        rw [List.flatten_cons, List.count_append, List.count_append]
        omega
    · refine Or.inr ⟨[], chunks, rfl, ?_, rfl⟩
      intro beginning hbeginning
      rw [List.prefix_nil.mp hbeginning]
      decide

theorem balanced_iff (text : Str) : Balanced text ↔ StaysOpen 1 text ∧ 1 + text.count 123 - text.count 125 = 1 := by
  constructor
  · rintro ⟨hopened, hclosed⟩
    refine ⟨fun beginning hbeginning => ?_, by omega⟩
    have hle := hopened beginning hbeginning
    omega
  · rintro ⟨hopen, hone⟩
    refine ⟨fun beginning hbeginning => ?_, ?_⟩
    · have hlt := hopen beginning hbeginning
      omega
    · have hlt := hopen text List.prefix_rfl
      omega

end Closing

section Arrays

variable {rj : RapidJson} {ids : RandomIds} {dialect : Dialect} {startTag : Str} {p : CallArrayParser}
  (hfollows : dialect.Follows startTag) {number : Str → Option Str} (hrj : rj.Conforms number)

/-- A call that can be written: its name is a word, and its arguments are an object. -/
structure WrittenCall.WellFormed (call : WrittenCall) : Prop where
  word : ∀ c ∈ call.name, isWordChar c = true
  object : ∃ members, Json.readText call.arguments = some (.obj members)

theorem WrittenCall.WellFormed.textBytes {call : WrittenCall} (h : call.WellFormed) : ∀ c ∈ call.arguments, Json.isTextByte c = true := by
  obtain ⟨members, hread⟩ := h.object
  exact Json.textBytes_of_readText hread

/-- The parser tells of these calls. -/
def TellsFrom (rj : RapidJson) (ids : RandomIds) (dialect : Dialect) (p : CallArrayParser) (chunks : List Str) (index : Int)
    (calls : List WrittenCall) : Prop :=
  ∃ deltas p', parseChunks rj ids dialect p chunks = some (deltas, p') ∧ TellsAll index calls deltas

/-- The deltas of a call with these chunks of arguments. -/
def callDeltas (index : Int) (id name : Str) (chunks : List Str) : List Delta :=
  .toolCall ⟨index, some id, some name, []⟩ :: chunks.map (told index)

theorem callDeltas_ofCall (index : Int) (id name : Str) (chunks : List Str) :
    ∀ delta ∈ callDeltas index id name chunks, Delta.OfCall index delta := by
  intro delta hdelta
  rcases List.mem_cons.mp hdelta with rfl | hdelta
  · exact ⟨_, rfl, rfl⟩
  · obtain ⟨chunk, -, rfl⟩ := List.mem_map.mp hdelta
    exact ⟨_, rfl, rfl⟩

theorem toolCallDeltas_told (index : Int) (chunks : List Str) :
    (toolCallDeltas (chunks.map (told index))).filterMap (·.name) = [] ∧
      (toolCallDeltas (chunks.map (told index))).flatMap (·.arguments) = chunks.flatten := by
  induction chunks with
  | nil => exact ⟨rfl, rfl⟩
  | cons chunk chunks ih =>
    have hcons : toolCallDeltas ((chunk :: chunks).map (told index)) = ⟨index, none, none, chunk⟩ :: toolCallDeltas (chunks.map (told index)) := rfl
    rw [hcons, List.filterMap_cons, List.flatMap_cons, ih.1, ih.2]
    exact ⟨rfl, rfl⟩

theorem callDeltas_tells (index : Int) (id name : Str) (chunks : List Str) :
    Tells index ⟨name, chunks.flatten⟩ (callDeltas index id name chunks) := by
  have hcons : toolCallDeltas (callDeltas index id name chunks) =
      ⟨index, some id, some name, []⟩ :: toolCallDeltas (chunks.map (told index)) := rfl
  obtain ⟨hnames, harguments⟩ := toolCallDeltas_told index chunks
  refine ⟨callDeltas_ofCall index id name chunks, ?_, ?_⟩
  · rw [hcons, List.filterMap_cons, hnames]
  · rw [hcons, List.flatMap_cons, harguments]
    rfl

theorem argumentsOf_callDeltas (index : Int) (id name : Str) (chunks : List Str) :
    argumentsOf index (callDeltas index id name chunks) = chunks.flatten := by
  rw [argumentsOf_ofCall (callDeltas_ofCall index id name chunks)]
  exact (callDeltas_tells index id name chunks).arguments

variable {call : WrittenCall} (hcall : call.WellFormed) {calls : List WrittenCall} (hbetween : Between p) {before chunks : List Str}
include hfollows hrj hcall hbetween

/-- The run up to where a brace stays open. -/
theorem parseChunks_open (hbefore : ∀ chunk ∈ before, IsCharacter chunk) (hpart : before.flatten <+: call.arguments)
    (hopen : StaysOpen 1 before.flatten) (later : List Str) :
    parseChunks rj ids dialect p (singles (callStart call.name) ++ (before ++ later)) =
      (parseChunks rj ids dialect (collectingCall (p.toolCallIndex + 1) call.name before.flatten
        (1 + before.flatten.count 123 - before.flatten.count 125) (p.drawnIds + 1)) later).map fun read =>
          (callDeltas (p.toolCallIndex + 1) (ids.draw p.drawnIds) call.name before ++ read.1, read.2) := by
  have harguments := parseChunks_arguments ids (p.toolCallIndex + 1) (p.drawnIds + 1) hfollows hrj hcall.word hbefore
    (fun c hc => hcall.textBytes c (hpart.subset hc)) [] (fun c hc => absurd hc List.not_mem_nil) hopen later
  rw [parse_callStart hfollows hrj hcall.word hbetween, harguments, List.nil_append, Option.map_map]
  rfl

variable (ids) in
/-- At the brace that closes the last one the call is over. -/
theorem parseChunks_closed (hbefore : ∀ chunk ∈ before, IsCharacter chunk) (hpart : before.flatten <+: call.arguments)
    (hopen : StaysOpen 1 before.flatten) (hone : 1 + before.flatten.count 123 - before.flatten.count 125 = 1) (later : List Str) :
    ∃ q, Between q ∧ q.toolCallIndex = p.toolCallIndex + 1 ∧
      parseChunks rj ids dialect p (singles (callStart call.name) ++ (before ++ [125] :: later)) =
        (parseChunks rj ids dialect q later).map fun read =>
          (callDeltas (p.toolCallIndex + 1) (ids.draw p.drawnIds) call.name before ++ read.1, read.2) := by
  have htext : ∀ c ∈ before.flatten, Json.isTextByte c = true := fun c hc => hcall.textBytes c (hpart.subset hc)
  have hend := parse_argumentsEnd ids (p.toolCallIndex + 1) (p.drawnIds + 1) hfollows hrj hcall.word htext
  refine ⟨{ collectingCall (p.toolCallIndex + 1) call.name before.flatten 0 (p.drawnIds + 1) with
    internalState := .awaitingToolCallOpeningBrace, jsonBuilder := .collected call.name before.flatten }, ⟨rfl, rfl⟩, rfl, ?_⟩
  rw [parseChunks_open hfollows hrj hcall hbetween hbefore hpart hopen, hone, parseChunks_silent hend]

variable (ids calls) in
/-- A call that is closed early tells too little. -/
theorem not_tells_of_closes {index : Int} (hindex : index = p.toolCallIndex + 1) (after : List Str)
    (hbefore : ∀ chunk ∈ before, IsCharacter chunk) (hpart : before.flatten <+: call.arguments) (hshort : before.flatten ≠ call.arguments)
    (hopen : StaysOpen 1 before.flatten) (hone : 1 + before.flatten.count 123 - before.flatten.count 125 = 1) :
    ¬TellsFrom rj ids dialect p (singles (callStart call.name) ++ (before ++ [125] :: after)) index (call :: calls) := by
  rintro ⟨deltas, p', hrun, htells⟩
  obtain ⟨q, hq, hsame, hclosed⟩ := parseChunks_closed ids hfollows hrj hcall hbetween hbefore hpart hopen hone after
  rw [hclosed] at hrun
  obtain ⟨read, hread, heq⟩ := Option.map_eq_some_iff.mp hrun
  obtain ⟨rfl, -⟩ := Prod.mk.inj heq
  have hbeyond := parseChunks_beyond index hread (Or.inl ⟨hq.state, by omega⟩)
  have htold := htells.arguments
  rw [hindex] at htold hbeyond
  rw [argumentsOf_append, argumentsOf_callDeltas, argumentsOf_after hbeyond, List.append_nil] at htold
  exact hshort htold

variable (ids calls) in
/-- A call that is not closed by its own brace tells this brace. -/
theorem not_tells_of_open {index : Int} (hindex : index = p.toolCallIndex + 1) (after : List Str)
    (hbefore : ∀ chunk ∈ before, IsCharacter chunk) (hwhole : before.flatten = call.arguments)
    (hopen : StaysOpen 1 before.flatten) (hone : 1 + before.flatten.count 123 - before.flatten.count 125 ≠ 1) :
    ¬TellsFrom rj ids dialect p (singles (callStart call.name) ++ (before ++ [125] :: after)) index (call :: calls) := by
  rintro ⟨deltas, p', hrun, htells⟩
  have hpart : before.flatten <+: call.arguments := hwhole ▸ List.prefix_rfl
  have hstill := hopen before.flatten List.prefix_rfl
  have hpositive : 0 < 1 + before.flatten.count 123 - before.flatten.count 125 := by omega
  have hcount := updateOpenBracesCount_character hpositive (Or.inl ⟨125, rfl⟩ : IsCharacter [125])
  have hcounts : ([125] : Str).count 123 = 0 ∧ ([125] : Str).count 125 = 1 := ⟨rfl, rfl⟩
  rw [hcounts.1, hcounts.2] at hcount
  have htext : ∀ c ∈ before.flatten, Json.isTextByte c = true := fun c hc => hcall.textBytes c (hpart.subset hc)
  have hmore : ∀ c ∈ ([125] : Str), Json.isTextByte c = true := fun c hc => by rw [List.mem_singleton.mp hc]; rfl
  have hbrace := parse_arguments ids (p.toolCallIndex + 1) (p.drawnIds + 1) hfollows hrj hcall.word htext hmore (List.cons_ne_nil _ _)
    hpositive hcount (by omega)
  rw [parseChunks_open hfollows hrj hcall hbetween hbefore hpart hopen, parseChunks_told hbrace] at hrun
  obtain ⟨read, hread, heq⟩ := Option.map_eq_some_iff.mp hrun
  obtain ⟨rfl, -⟩ := Prod.mk.inj heq
  obtain ⟨read', -, rfl⟩ := Option.map_eq_some_iff.mp hread
  have htold := htells.arguments
  rw [hindex, argumentsOf_append, argumentsOf_callDeltas, hwhole] at htold
  have hnone := List.append_right_eq_self.mp htold
  have hbraceTold : argumentsOf (p.toolCallIndex + 1) [told (p.toolCallIndex + 1) [125]] = [125] := by
    rw [argumentsOf_ofCall]
    · rfl
    · intro delta hdelta
      rw [List.mem_singleton.mp hdelta]
      exact ⟨_, rfl, rfl⟩
  have hfirst := argumentsOf_append (p.toolCallIndex + 1) [told (p.toolCallIndex + 1) [125]] read'.1
  rw [hbraceTold] at hfirst
  rw [List.singleton_append] at hfirst
  have hsame : argumentsOf (p.toolCallIndex + 1) (told (p.toolCallIndex + 1) [125] :: read'.1) = [] := hnone
  rw [hsame] at hfirst
  cases hfirst

variable (ids calls) in
/-- A call that is closed by its own brace is told, and the others follow. -/
theorem tellsFrom_closed {index : Int} (hindex : index = p.toolCallIndex + 1) (later : List Str)
    (hbefore : ∀ chunk ∈ before, IsCharacter chunk) (hwhole : before.flatten = call.arguments)
    (hopen : StaysOpen 1 before.flatten) (hone : 1 + before.flatten.count 123 - before.flatten.count 125 = 1) :
    ∃ q, Between q ∧ q.toolCallIndex = index ∧
      (TellsFrom rj ids dialect p (singles (callStart call.name) ++ (before ++ [125] :: later)) index (call :: calls) ↔
        TellsFrom rj ids dialect q later (index + 1) calls) := by
  have hpart : before.flatten <+: call.arguments := hwhole ▸ List.prefix_rfl
  obtain ⟨q, hq, hsame, hclosed⟩ := parseChunks_closed ids hfollows hrj hcall hbetween hbefore hpart hopen hone later
  have htells : Tells (p.toolCallIndex + 1) call (callDeltas (p.toolCallIndex + 1) (ids.draw p.drawnIds) call.name before) := by
    have htells := callDeltas_tells (p.toolCallIndex + 1) (ids.draw p.drawnIds) call.name before
    rw [hwhole] at htells
    exact htells
  refine ⟨q, hq, by omega, ?_⟩
  subst hindex
  constructor
  · rintro ⟨deltas, p', hrun, hall⟩
    rw [hclosed] at hrun
    obtain ⟨read, hread, heq⟩ := Option.map_eq_some_iff.mp hrun
    obtain ⟨rfl, -⟩ := Prod.mk.inj heq
    have hbeyond := parseChunks_beyond (p.toolCallIndex + 1) hread (Or.inl ⟨hq.state, by omega⟩)
    exact ⟨read.1, read.2, hread, hall.rest htells.ofCall hbeyond⟩
  · rintro ⟨deltas, p', hrun, hall⟩
    refine ⟨callDeltas (p.toolCallIndex + 1) (ids.draw p.drawnIds) call.name before ++ deltas, p', ?_, _, deltas, rfl, htells, hall⟩
    rw [hclosed, hrun]
    rfl

end Arrays

section Cuts

variable {rj : RapidJson} {ids : RandomIds} {dialect : Dialect} {startTag : Str}
  (hfollows : dialect.Follows startTag) {number : Str → Option Str} (hrj : rj.Conforms number)

theorem ascii_callStart {name : Str} (hname : ∀ c ∈ name, isWordChar c = true) : ∀ c ∈ callStart name, c < 128 := by
  have hascii {text : Str} (h : text.all (· < 128) = true) : ∀ c ∈ text, c < 128 := fun c hc =>
    of_decide_eq_true (List.all_eq_true.mp h c hc)
  have hword : ∀ c ∈ name, c < 128 := by
    intro c hc
    by_contra hhigh
    have hword := hname c hc
    rw [UInt8.lt_iff_toNat_lt] at hhigh
    simp only [isWordChar, isalnum, isdigit, Bool.or_eq_true, Bool.and_eq_true, decide_eq_true_iff, beq_iff_eq, UInt8.le_iff_toNat_le] at hword
    have h128 : UInt8.toNat 128 = 128 := rfl
    have h57 : UInt8.toNat 57 = 57 := rfl
    have h90 : UInt8.toNat 90 = 90 := rfl
    have h122 : UInt8.toNat 122 = 122 := rfl
    rcases hword with ((hdigit | hupper) | hlower) | hunderscore
    · omega
    · omega
    · omega
    · rw [hunderscore] at hhigh
      exact hhigh (by decide)
  intro c hc
  rw [callStart, PartialJsonBuilder.argumentsOpen, PartialJsonBuilder.nameText] at hc
  simp only [List.mem_append] at hc
  rcases hc with (((hc | hc) | hc) | hc) | hc
  · exact hascii (by decide) c hc
  · exact hword c hc
  · exact hascii (by decide) c hc
  · exact hascii (by decide) c hc
  · exact hascii (by decide) c hc

theorem OneByOne.nothing {chunks : List Str} (h : OneByOne [] chunks) : chunks = [] := by
  cases chunks with
  | nil => rfl
  | cons chunk chunks =>
    have hempty := (List.append_eq_nil_iff.mp h.whole).1
    exact absurd hempty (h.characters chunk List.mem_cons_self).nonempty

include hfollows hrj

variable (ids) in
/-- A call with what follows it. -/
theorem tellsFrom_call {call : WrittenCall} (hcall : call.WellFormed) {calls : List WrittenCall} {rest : Str}
    (hrest : ∀ (q : CallArrayParser) (chunks : List Str), Between q → OneByOne rest chunks →
      (TellsFrom rj ids dialect q chunks (q.toolCallIndex + 1) calls ↔ ∀ call ∈ calls, Balanced call.arguments))
    {p : CallArrayParser} (hbetween : Between p) {chunks : List Str} (hchunks : OneByOne (call.text ++ rest) chunks) :
    TellsFrom rj ids dialect p chunks (p.toolCallIndex + 1) (call :: calls) ↔ ∀ written ∈ call :: calls, Balanced written.arguments := by
  rw [call.text_eq, List.append_assoc] at hchunks
  obtain ⟨argumentChunks, rfl, hargumentChunks⟩ := hchunks.ascii (ascii_callStart hcall.word)
  rw [List.append_assoc, List.singleton_append] at hargumentChunks
  obtain ⟨before, later, rfl, hbefore, hlater⟩ := hargumentChunks.before (by decide)
  have hwhole : before.flatten = call.arguments := hbefore.whole
  rw [List.forall_mem_cons, balanced_iff, ← hwhole]
  rcases staysOpen_or_closes hbefore.characters Nat.one_pos with hopen | ⟨early, after, rfl, hopen, hone⟩
  · by_cases hone : 1 + before.flatten.count 123 - before.flatten.count 125 = 1
    · obtain ⟨q, hq, hindex, hiff⟩ := tellsFrom_closed ids hfollows hrj hcall calls hbetween rfl later hbefore.characters hwhole hopen hone
      rw [hiff, ← hindex, hrest q later hq hlater]
      exact ⟨fun h => ⟨⟨hopen, hone⟩, h⟩, fun h => h.2⟩
    · have hnot := not_tells_of_open ids hfollows hrj hcall calls hbetween rfl later hbefore.characters hwhole hopen hone
      exact ⟨fun h => absurd h hnot, fun h => absurd h.1.2 hone⟩
  · have hearly : ∀ chunk ∈ early, IsCharacter chunk := fun chunk hchunk => hbefore.characters chunk (List.mem_append_left _ hchunk)
    have hflatten : (early ++ [125] :: after).flatten = early.flatten ++ 125 :: after.flatten := by
      rw [List.flatten_append, List.flatten_cons]
      rfl
    rw [hflatten] at hwhole
    have hpart : early.flatten <+: call.arguments := hwhole ▸ List.prefix_append _ _
    have hshort : early.flatten ≠ call.arguments := by
      rw [← hwhole]
      exact fun h => absurd (List.self_eq_append_right.mp h) (List.cons_ne_nil _ _)
    have hnot := not_tells_of_closes ids hfollows hrj hcall calls hbetween rfl (after ++ [125] :: later) hearly hpart hshort hopen hone
    have hsplit : early ++ [125] :: after ++ [125] :: later = early ++ [125] :: (after ++ [125] :: later) := by
      rw [List.append_assoc, List.cons_append]
    rw [hsplit]
    refine ⟨fun h => absurd h hnot, fun h => ?_⟩
    -- the brace would have to stay open behind the early brace
    have hbrace := h.1.1 (early.flatten ++ [125]) (by rw [hflatten]; exact (List.prefix_append_right_inj _).mpr (List.prefix_append [125] _))
    rw [List.count_append, List.count_append] at hbrace
    have hcounts : ([125] : Str).count 123 = 0 ∧ ([125] : Str).count 125 = 1 := ⟨rfl, rfl⟩
    omega

/-- From between two calls the rest of the array is told if all braces are balanced, and not otherwise. -/
theorem tellsFrom_later {calls : List WrittenCall} (hcalls : ∀ call ∈ calls, call.WellFormed) {p : CallArrayParser} (hbetween : Between p)
    {chunks : List Str} (hchunks : OneByOne (laterText calls) chunks) :
    TellsFrom rj ids dialect p chunks (p.toolCallIndex + 1) calls ↔ ∀ call ∈ calls, Balanced call.arguments := by
  induction calls generalizing p chunks with
  | nil =>
    obtain ⟨later, rfl, hlater⟩ := hchunks.first (by decide)
    rw [hlater.nothing]
    have hend := parseChunks_silent (parse_separator rj ids hfollows hbetween (c := 93) (by decide)) []
    refine ⟨fun _ call hmem => absurd hmem List.not_mem_nil, fun _ => ⟨[], p, hend, rfl⟩⟩
  | cons call calls ih =>
    rw [laterText_cons] at hchunks
    obtain ⟨blank, rfl, hblank⟩ := hchunks.first (by decide)
    obtain ⟨rest, rfl, hrest⟩ := hblank.first (by decide)
    have hskip : parseChunks rj ids dialect p ([44] :: [32] :: rest) = parseChunks rj ids dialect p rest := by
      rw [parseChunks_silent (parse_separator rj ids hfollows hbetween (by decide)), parseChunks_silent (parse_separator rj ids hfollows hbetween (by decide))]
    have hcall := tellsFrom_call ids hfollows hrj (hcalls call List.mem_cons_self)
      (fun q chunks hq hchunks => ih (fun c hc => hcalls c (List.mem_cons_of_mem call hc)) hq hchunks) hbetween hrest
    rw [← hcall, TellsFrom, TellsFrom, hskip]

variable (rj ids) in
omit hrj in
/-- The start tag and the bracket lead to the first call. -/
theorem parseChunks_start {p : CallArrayParser} (hstate : p.internalState = .awaitingStartTag) (hbuffer : p.unprocessedBuffer = []) (later : List Str) :
    parseChunks rj ids dialect p (startTag :: [91] :: later) =
      parseChunks rj ids dialect { p with internalState := .awaitingToolCallOpeningBrace } later := by
  have htag : parseChunkIn rj ids dialect p startTag .none 4 = some (none, { p with internalState := .awaitingToolCallsOpeningBracket }) := by
    have hcomes : Comes dialect p startTag := .of_unmoved hfollows hbuffer hfollows.nonempty fun _ => by
      rw [movePostColonContentToUnprocessedBuffer, hfollows.colonless]
    have hignored := hfollows.ignoresNothing { p with internalState := .awaitingToolCallsOpeningBracket } hbuffer (fun h => CallArrayState.noConfusion h)
    rw [parse_tag hcomes 3 hstate hfollows.start, parseChunkIn, if_pos hignored]
  have hbracket := parse_bracket rj ids
    (Comes.single hfollows (p := { p with internalState := .awaitingToolCallsOpeningBracket }) hbuffer 91) 3 rfl rfl
  rw [parseChunks_silent htag, parseChunks_silent hbracket]

end Cuts

theorem oneByOne_singles (text : Str) : OneByOne text (singles text) := by
  induction text with
  | nil => exact ⟨rfl, fun chunk hchunk => absurd hchunk List.not_mem_nil⟩
  | cons c text ih =>
    refine ⟨congrArg (c :: ·) ih.whole, fun chunk hchunk => ?_⟩
    rcases List.mem_cons.mp hchunk with rfl | hchunk
    · exact Or.inl ⟨c, rfl⟩
    · exact ih.characters chunk hchunk

/-- An object whose only string is a brace. -/
def braceCall : WrittenCall := ⟨bytes "f", Json.text (.obj [(bytes "a", .str (bytes "\x7d"))])⟩

end ModelServer.CallArrayParser
