import ModelServer.PartialJsonScan
import ModelServer.RapidJsonNumbers

/-! The documents of a call that comes in pieces, its arguments as a string. -/

namespace ModelServer

section Escapes

/-- Text without control characters is escaped as a writer does it. -/
theorem escapeSpecialCharacters_eq {text : Str} (h : ∀ c ∈ text, Json.isTextByte c = true) :
    escapeSpecialCharacters text = text.flatMap Json.escapeByte := by
  have hbyte (c : Byte) (hc : Json.isTextByte c = true) : escapeSpecialCharacter c = Json.escapeByte c := by
    unfold escapeSpecialCharacter Json.escapeByte
    by_cases hquote : c = 34
    · subst hquote; rfl
    by_cases hbackslash : c = 92
    · subst hbackslash; rfl
    by_cases h8 : c = 8
    · subst h8; rfl
    by_cases h12 : c = 12
    · subst h12; rfl
    by_cases h10 : c = 10
    · subst h10; rfl
    by_cases h13 : c = 13
    · subst h13; rfl
    by_cases h9 : c = 9
    · subst h9; rfl
    have hcontrol : ¬c < 32 := by
      simp only [Json.isTextByte, Bool.or_eq_true, decide_eq_true_iff, beq_iff_eq] at hc
      rcases hc with ((hc | hc) | hc) | hc
      · exact UInt8.not_lt.mpr hc
      · exact absurd hc h9
      · exact absurd hc h10
      · exact absurd hc h13
    have hmarks : ¬c = char '"' ∧ ¬c = char '\\' ∧ ¬c = char '\n' ∧ ¬c = char '\r' ∧ ¬c = char '\t' :=
      ⟨hquote, hbackslash, h10, h13, h9⟩
    simp only [hmarks, hquote, hbackslash, h8, h9, h10, h12, h13, hcontrol, if_false]
  induction text with
  | nil => rfl
  | cons c text ih =>
    rw [escapeSpecialCharacters, List.flatMap_cons, List.flatMap_cons, hbyte c (h c List.mem_cons_self)]
    exact congrArg _ (ih fun d hd => h d (List.mem_cons_of_mem c hd))

theorem ne_of_isWordChar {c byte : Byte} (h : isWordChar c = true) (hbyte : isWordChar byte = false) : c ≠ byte := by
  rintro rfl
  rw [h] at hbyte
  cases hbyte

theorem not_control_of_isWordChar {c : Byte} (h : isWordChar c = true) : ¬c < 32 := by
  intro hcontrol
  simp only [isWordChar, isalnum, isdigit, Bool.or_eq_true, Bool.and_eq_true, decide_eq_true_iff, beq_iff_eq] at h
  rw [UInt8.lt_iff_toNat_lt] at hcontrol
  simp only [UInt8.le_iff_toNat_le] at h
  have h32 : UInt8.toNat 32 = 32 := rfl
  have h48 : UInt8.toNat 48 = 48 := rfl
  have h65 : UInt8.toNat 65 = 65 := rfl
  have h97 : UInt8.toNat 97 = 97 := rfl
  rcases h with ((hdigit | hupper) | hlower) | hunderscore
  · omega
  · omega
  · omega
  · rw [hunderscore] at hcontrol
    exact absurd hcontrol (by decide)

theorem escapeByte_of_isWordChar {c : Byte} (h : isWordChar c = true) : Json.escapeByte c = [c] := by
  have hne (byte : Byte) (hbyte : isWordChar byte = false) : ¬c = byte := ne_of_isWordChar h hbyte
  rw [Json.escapeByte, if_neg (hne 34 (by decide)), if_neg (hne 92 (by decide)), if_neg (hne 8 (by decide)), if_neg (hne 9 (by decide)),
    if_neg (hne 10 (by decide)), if_neg (hne 12 (by decide)), if_neg (hne 13 (by decide)), if_neg (not_control_of_isWordChar h)]

theorem quoted_of_isWordChar {text : Str} (h : ∀ c ∈ text, isWordChar c = true) : Json.quoted text = 34 :: (text ++ [34]) := by
  have hsame : text.flatMap Json.escapeByte = text := by
    induction text with
    | nil => rfl
    | cons c text ih =>
      rw [List.flatMap_cons, escapeByte_of_isWordChar (h c List.mem_cons_self), ih fun d hd => h d (List.mem_cons_of_mem c hd)]
      rfl
  rw [Json.quoted, hsame]

end Escapes

section Documents

variable {rj : RapidJson} {number : Str → Option Str}

/-- A member of a call: its value is a string, or still missing. -/
structure CallMember where
  gap : Str
  key : Str
  value : Option Str

namespace CallMember

variable (member : CallMember)

def json : Json :=
  match member.value with
  | some s => .str s
  | none => .null

def valueText : Str :=
  match member.value with
  | some s => Json.quoted s
  | none => bytes "null"

def part : Str × Json.MemberPart := (member.gap, ⟨member.key, member.valueText, some member.json⟩)

theorem readsAs : Json.ReadsAs member.valueText (some member.json) := by
  rw [valueText, json]
  cases member.value with
  | none => exact Json.readsAs_null
  | some s => exact Json.readsAs_str s

theorem zero_notMem (hgap : ∀ c ∈ member.gap, Json.isBlank c = true) : 0 ∉ Json.MemberPart.spaced member.part := by
  have hblank : 0 ∉ member.gap := fun hmem => absurd (hgap 0 hmem) (by decide)
  have hvalue : 0 ∉ member.valueText := by
    rw [valueText]
    cases member.value with
    | none => decide
    | some s => exact Json.zero_notMem_quoted s
  show 0 ∉ Json.quoted member.key ++ 58 :: (member.gap ++ member.valueText)
  simp only [List.mem_append, List.mem_cons, not_or]
  exact ⟨Json.zero_notMem_quoted _, by decide, hblank, hvalue⟩

end CallMember

/-- An object with these members. -/
def membersText (members : List CallMember) : Str :=
  123 :: (Json.joined [32] ((members.map CallMember.part).map Json.MemberPart.spaced) ++ [125])

theorem zero_notMem_joined {gap : Str} (hgap : 0 ∉ gap) {texts : List Str} (h : ∀ text ∈ texts, 0 ∉ text) : 0 ∉ Json.joined gap texts := by
  cases texts with
  | nil => exact List.not_mem_nil
  | cons text texts =>
    rw [Json.joined, List.mem_append, List.mem_flatMap, not_or]
    refine ⟨h text List.mem_cons_self, ?_⟩
    rintro ⟨later, hlater, hmem⟩
    rcases List.mem_cons.mp hmem with hzero | hmem
    · cases hzero
    rcases List.mem_append.mp hmem with hmem | hmem
    · exact hgap hmem
    · exact h later (List.mem_cons_of_mem text hlater) hmem

variable {members : List CallMember}

theorem zero_notMem_membersText (hgap : ∀ member ∈ members, ∀ c ∈ member.gap, Json.isBlank c = true) : 0 ∉ membersText members := by
  have hjoined : 0 ∉ Json.joined [32] ((members.map CallMember.part).map Json.MemberPart.spaced) := by
    refine zero_notMem_joined (by decide) fun text htext => ?_
    obtain ⟨part, hpart, rfl⟩ := List.mem_map.mp htext
    obtain ⟨member, hmember, rfl⟩ := List.mem_map.mp hpart
    exact member.zero_notMem (hgap member hmember)
  rw [membersText, List.mem_cons, List.mem_append, not_or, not_or]
  exact ⟨by decide, hjoined, by decide⟩

theorem respelled_members (number : Str → Option Str) (members : List CallMember) :
    Json.respelledMembers number (members.map fun member => (member.key, member.json)) =
      some (members.map fun member => (member.key, member.json)) := by
  induction members with
  | nil => rfl
  | cons member members ih =>
    have hvalue : Json.respelled number member.json = some member.json := by
      rw [CallMember.json]
      cases member.value with
      | none => rfl
      | some s => rfl
    rw [List.map_cons, Json.respelledMembers, hvalue, ih]
    rfl

theorem mapM_part (members : List CallMember) : ((members.map CallMember.part).mapM fun p : Str × Json.MemberPart => p.2.member) =
    some (members.map fun member => (member.key, member.json)) := by
  induction members with
  | nil => rfl
  | cons member members ih =>
    rw [List.map_cons, List.mapM_cons, ih]
    rfl

theorem document_members (hrj : rj.Conforms number) (hgap : ∀ member ∈ members, ∀ c ∈ member.gap, Json.isBlank c = true) :
    rj.document (membersText members) = some (.obj (members.map fun member => (member.key, member.json))) := by
  have hparts : ∀ p ∈ members.map CallMember.part, (∀ c ∈ p.1, Json.isBlank c = true) ∧ Json.ReadsAs p.2.text p.2.value := by
    intro p hp
    obtain ⟨member, hmember, rfl⟩ := List.mem_map.mp hp
    exact ⟨hgap member hmember, member.readsAs⟩
  have hspace : ∀ c ∈ ([32] : Str), Json.isBlank c = true := fun c hc => by rw [List.mem_singleton.mp hc]; rfl
  have hread := (Json.readsAs_spaced hspace _ hparts).readText
  rw [mapM_part] at hread
  rw [hrj.document _ (zero_notMem_membersText hgap), membersText, hread]
  show (Json.respelledMembers number _).map Json.obj = _
  rw [respelled_members]
  rfl

end Documents

namespace PartialJsonBuilder

section Stages

variable {rj : RapidJson} {number : Str → Option Str}

theorem add_eq {b b' : PartialJsonBuilder} {chunk left : Str} {flag : Bool} (hleft : b.buffer.drop b.currentPosition = left)
    (hposition : b.currentPosition ≤ b.buffer.length)
    (h : iterateAll { b with buffer := b.buffer ++ chunk } false (left ++ chunk) = some (b', flag)) :
    b.add rj chunk = b'.document rj flag := by
  rw [add]
  show (iterateAll { b with buffer := b.buffer ++ chunk } false ((b.buffer ++ chunk).drop b.currentPosition)).bind _ = _
  rw [List.drop_append_of_le_length hposition, hleft, h]
  rfl

/-- A document whose brackets are closed. -/
theorem document_open (members : List CallMember) {b b' : PartialJsonBuilder} {flag : Bool} {cut : Str} (hended : b.state ≠ .ended)
    (hbegin : b.state ≠ .begin) (hcut : b.cutInput flag = (cut, b')) (hclosed : cut ++ closings b'.openCloseStack = membersText members)
    (hrj : rj.Conforms number) (hgap : ∀ member ∈ members, ∀ c ∈ member.gap, Json.isBlank c = true) :
    b.document rj flag = some (.obj (members.map fun member => (member.key, member.json)), b') := by
  have hnotEnded : ¬(b.state = .ended ∧ b.openCloseStack.isEmpty = true) := fun h => hended h.1
  rw [document, if_neg hnotEnded, if_neg hbegin, hcut]
  have hne : ¬(membersText members).isEmpty = true := Bool.false_ne_true
  dsimp only
  rw [hclosed, if_neg hne, RapidJson.cStr_of_noNul (zero_notMem_membersText hgap),
    document_members hrj hgap]
  rfl

def nameText (name : Str) : Str := bytes "\x7b\"name\": \"" ++ name

def nameMember (name : Str) : CallMember := ⟨[32], bytes "name", some name⟩

/-- In the name. -/
def naming (name : Str) : PartialJsonBuilder where
  buffer := nameText name
  currentPosition := (nameText name).length
  state := .processingString
  openCloseStack := [(34, 9), (123, 0)]

/-- Behind the name. -/
def named (name : Str) : PartialJsonBuilder where
  buffer := nameText name ++ [34]
  currentPosition := (nameText name ++ [34]).length
  state := .processingObject
  openCloseStack := [(123, 0)]

/-- In the second key, which is taken back. -/
def keyed (name key : Str) : PartialJsonBuilder where
  buffer := nameText name ++ [34] ++ 44 :: key
  currentPosition := (nameText name ++ [34]).length
  state := .processingObject
  lastSeparator := ⟨(nameText name ++ [34]).length, .processingObject⟩
  openCloseStack := [(123, 0)]

/-- Behind the comma. -/
def separated (name key : Str) : PartialJsonBuilder where
  buffer := nameText name ++ [34] ++ 44 :: key
  currentPosition := (nameText name ++ [34]).length + 1
  state := .awaitingKey
  lastSeparator := ⟨(nameText name ++ [34]).length, .processingObject⟩
  openCloseStack := [(123, 0)]

def argumentsOpen (name : Str) : Str := nameText name ++ [34] ++ bytes ", \"arguments\":"

/-- Behind the second colon. -/
def awaiting (name : Str) : PartialJsonBuilder where
  buffer := argumentsOpen name
  currentPosition := (argumentsOpen name).length
  state := .awaitingValue
  lastSeparator := ⟨(nameText name ++ [34]).length, .processingObject⟩
  openCloseStack := [(123, 0)]

/-- In the arguments. -/
def collecting (name text : Str) : PartialJsonBuilder where
  buffer := argumentsOpen name ++ [32, 34] ++ escapeSpecialCharacters text
  currentPosition := (argumentsOpen name ++ [32, 34] ++ escapeSpecialCharacters text).length
  state := .processingString
  lastSeparator := ⟨(nameText name ++ [34]).length, .processingObject⟩
  openCloseStack := [(34, (argumentsOpen name).length + 1), (123, 0)]

/-- Behind the call. -/
def collected (name text : Str) : PartialJsonBuilder where
  buffer := argumentsOpen name ++ [32, 34] ++ escapeSpecialCharacters text ++ [34, 125]
  currentPosition := (argumentsOpen name ++ [32, 34] ++ escapeSpecialCharacters text ++ [34, 125]).length
  state := .ended
  lastSeparator := ⟨(nameText name ++ [34]).length, .processingObject⟩

def argumentsMember (gap : Str) (value : Option Str) : CallMember := ⟨gap, bytes "arguments", value⟩

section Opening

def nameKey : Str := bytes "\x7b\"name\""

/-- In the first key: all of it is taken back. -/
def opening (text : Str) : PartialJsonBuilder where
  buffer := text

/-- Behind the first colon. -/
def valued (gap : Str) : PartialJsonBuilder where
  buffer := nameKey ++ 58 :: gap
  currentPosition := (nameKey ++ 58 :: gap).length
  state := .awaitingValue
  openCloseStack := [(123, 0)]

theorem add_opening (rj : RapidJson) {k : Nat} (hk : k < 7) :
    (opening (nameKey.take k)).add rj [nameKey.getD k 0] = some (.obj [], opening (nameKey.take (k + 1))) := by
  rcases k with _ | _ | _ | _ | _ | _ | _ | k
  · rfl
  · rfl
  · rfl
  · rfl
  · rfl
  · rfl
  · rfl
  · omega

theorem document_valued (hrj : rj.Conforms number) {gap : Str} (hgap : gap = [] ∨ gap = [32]) :
    (valued gap).document rj false = some (.obj [(bytes "name", .null)], valued gap) := by
  have hblank : ∀ c ∈ gap, Json.isBlank c = true := by
    intro c hc
    rcases hgap with rfl | rfl
    · cases hc
    · rw [List.mem_singleton.mp hc]
      rfl
  have hmember : ∀ member ∈ [CallMember.mk gap (bytes "name") none], ∀ c ∈ member.gap, Json.isBlank c = true := by
    intro member hmember
    rw [List.mem_singleton.mp hmember]
    exact hblank
  have hclosed : nameKey ++ 58 :: gap ++ bytes "null" ++ [125] = membersText [CallMember.mk gap (bytes "name") none] := by
    rcases hgap with rfl | rfl
    · rfl
    · rfl
  exact document_open [⟨gap, bytes "name", none⟩] (fun h => IteratorState.noConfusion h) (fun h => IteratorState.noConfusion h) rfl hclosed hrj hmember

theorem add_nameColon (hrj : rj.Conforms number) : (opening nameKey).add rj [58] = some (.obj [(bytes "name", .null)], valued []) := by
  have hstep : iterateAll { opening nameKey with buffer := nameKey ++ [58] } false (nameKey ++ [58]) = some (valued [], false) := rfl
  rw [add_eq rfl (Nat.zero_le _) hstep]
  exact document_valued hrj (Or.inl rfl)

theorem add_nameBlank (hrj : rj.Conforms number) : (valued []).add rj [32] = some (.obj [(bytes "name", .null)], valued [32]) := by
  have hstep : iterateAll { valued [] with buffer := (valued []).buffer ++ [32] } false ([] ++ [32]) = some (valued [32], false) := rfl
  rw [add_eq rfl (Nat.le_refl _) hstep]
  exact document_valued hrj (Or.inr rfl)

end Opening

section Closed

variable {name : Str} (hname : ∀ c ∈ name, isWordChar c = true)
include hname

theorem nameText_closed : nameText name ++ [34, 125] = membersText [nameMember name] := by
  have hopen : bytes "\x7b\"name\": \"" = 123 :: (Json.quoted (bytes "name") ++ [58, 32, 34]) := rfl
  have hmember : membersText [nameMember name] = 123 :: ((Json.quoted (bytes "name") ++ 58 :: ([32] ++ Json.quoted name)) ++ [] ++ [125]) := rfl
  rw [hmember, nameText, hopen, quoted_of_isWordChar hname]
  simp only [List.append_assoc, List.cons_append, List.nil_append]

theorem argumentsOpen_closed (gap : Str) (value : Option Str) :
    argumentsOpen name ++ (gap ++ (argumentsMember gap value).valueText) ++ [125] =
      membersText [nameMember name, argumentsMember gap value] := by
  have hopen : bytes "\x7b\"name\": \"" = 123 :: (Json.quoted (bytes "name") ++ [58, 32, 34]) := rfl
  have harguments : bytes ", \"arguments\":" = 44 :: 32 :: (Json.quoted (bytes "arguments") ++ [58]) := rfl
  have hmembers : membersText [nameMember name, argumentsMember gap value] =
      123 :: ((Json.quoted (bytes "name") ++ 58 :: ([32] ++ Json.quoted name)) ++
        ((44 :: ([32] ++ (Json.quoted (bytes "arguments") ++ 58 :: (gap ++ (argumentsMember gap value).valueText)))) ++ []) ++ [125]) := rfl
  rw [hmembers, argumentsOpen, nameText, hopen, harguments, quoted_of_isWordChar hname]
  simp only [List.append_assoc, List.cons_append, List.nil_append]

end Closed

section Adding

theorem name_gap (name : Str) : ∀ member ∈ [nameMember name], ∀ c ∈ member.gap, Json.isBlank c = true := by
  intro member hmember c hc
  rw [List.mem_singleton.mp hmember] at hc
  rw [List.mem_singleton.mp hc]
  rfl

variable (hrj : rj.Conforms number) {name : Str} (hname : ∀ c ∈ name, isWordChar c = true)
include hrj hname

theorem document_naming : (naming name).document rj false = some (.obj [(bytes "name", .str name)], naming name) :=
  document_open [nameMember name] (fun h => IteratorState.noConfusion h) (fun h => IteratorState.noConfusion h) rfl (nameText_closed hname) hrj (name_gap name)

omit hname in
theorem add_nameQuote : (valued [32]).add rj [34] = some (.obj [(bytes "name", .str [])], naming []) := by
  have hstep : iterateAll { valued [32] with buffer := (valued [32]).buffer ++ [34] } false ([] ++ [34]) = some (naming [], false) := rfl
  rw [add_eq rfl (Nat.le_refl _) hstep]
  exact document_naming hrj fun c hc => absurd hc List.not_mem_nil

theorem add_naming {c : Byte} (hc : isWordChar c = true) :
    (naming name).add rj [c] = some (.obj [(bytes "name", .str (name ++ [c]))], naming (name ++ [c])) := by
  have hplain : ∀ x ∈ [c], x ≠ 34 ∧ x ≠ 92 := by
    intro x hx
    rw [List.mem_singleton.mp hx]
    exact ⟨ne_of_isWordChar hc (by decide), ne_of_isWordChar hc (by decide)⟩
  have hword : ∀ x ∈ name ++ [c], isWordChar x = true := by
    intro x hx
    rcases List.mem_append.mp hx with hx | hx
    · exact hname x hx
    · rw [List.mem_singleton.mp hx]
      exact hc
  have hstep : iterateAll { naming name with buffer := (naming name).buffer ++ [c] } false ([] ++ [c]) = some (naming (name ++ [c]), false) := by
    rw [List.nil_append, iterateAll_plain (Or.inl rfl) hplain]
    simp only [naming, nameText, List.append_assoc, List.length_append]
    rfl
  rw [add_eq (List.drop_length ..) (Nat.le_refl _) hstep]
  exact document_naming hrj hword

omit hrj in
theorem closes_name : Closes (nameText name) := by
  have hopen : Closes (bytes "\x7b\"name\": \"") := rfl
  exact hopen.append fun c hc => ne_of_isWordChar (hname c hc) (by decide)

theorem add_named : (naming name).add rj [34] = some (.obj [(bytes "name", .str name)], named name) := by
  have hbefore : (nameText name ++ [34]).take (nameText name).length = nameText name := List.take_left
  have hquote : iterate { naming name with buffer := nameText name ++ [34] } 34 = some ({ naming name with
      buffer := nameText name ++ [34], openCloseStack := [(123, 0)], state := .processingObject }, false) := by
    have hcloses := closes_name hname
    rw [Closes] at hcloses
    rw [iterate_quoted (Or.inl rfl), quoted_quote hbefore, if_neg (by omega)]
    rfl
  have hstep : iterateAll { naming name with buffer := nameText name ++ [34] } false ([] ++ [34]) = some (named name, false) := by
    have hopen : (IteratorState.processingString : IteratorState) ≠ .ended := by decide
    rw [List.nil_append, iterateAll_cons (b := { naming name with buffer := nameText name ++ [34] }) hopen hquote]
    simp only [iterateAll, advance, named, naming, List.length_append, List.length_singleton]
  rw [add_eq (List.drop_length ..) (Nat.le_refl _) hstep]
  exact document_open [nameMember name] (fun h => IteratorState.noConfusion h) (fun h => IteratorState.noConfusion h) rfl (by
    rw [← nameText_closed hname]
    simp only [named, List.append_assoc]
    rfl) hrj (name_gap name)

omit hrj hname in
theorem iterate_comma (buffer : Str) (position : Nat) (separator : LastSeparatorInfo) :
    iterate ⟨buffer, position, .processingObject, separator, [(123, 0)]⟩ 44 =
      some (⟨buffer, position, .awaitingKey, ⟨position, .processingObject⟩, [(123, 0)]⟩, false) := by
  rfl

omit hrj hname in
theorem iterateAll_comma {b : PartialJsonBuilder} {key : Str} (hbuffer : b.buffer = nameText name ++ [34] ++ 44 :: key)
    (hposition : b.currentPosition = (nameText name ++ [34]).length) (hstate : b.state = .processingObject)
    (hstack : b.openCloseStack = [(123, 0)]) : b.iterateAll false (44 :: key) = (separated name key).iterateAll false key := by
  obtain ⟨buffer, position, state, separator, stack⟩ := b
  cases hstate
  cases hstack
  have hseparated : separated name key = advance ⟨buffer, position, .awaitingKey, ⟨position, .processingObject⟩, [(123, 0)]⟩ := by
    rw [separated, advance]
    dsimp only at hbuffer hposition ⊢
    rw [hbuffer, hposition]
  have hopen : (IteratorState.processingObject : IteratorState) ≠ .ended := by decide
  rw [iterateAll_cons (b := ⟨buffer, position, .processingObject, separator, [(123, 0)]⟩) hopen (iterate_comma buffer position separator),
    hseparated]

/-- A key that has begun is taken back. -/
theorem document_keyed {key : Str} {b : PartialJsonBuilder} (hbuffer : b.buffer = nameText name ++ [34] ++ 44 :: key)
    (hstate : b.state = .awaitingKey ∨ b.state = .processingKey ∨ b.state = .awaitingColon)
    (hseparator : b.lastSeparator = ⟨(nameText name ++ [34]).length, .processingObject⟩) (hstack : b.openCloseStack = [(123, 0)]) :
    b.document rj false = some (.obj [(bytes "name", .str name)], keyed name key) := by
  obtain ⟨buffer, position, state, separator, stack⟩ := b
  cases hbuffer
  cases hseparator
  cases hstack
  have hlength : (nameText name ++ [34]).length < (nameText name ++ [34] ++ 44 :: key).length := by
    simp only [List.length_append, List.length_cons]
    omega
  have htake : (nameText name ++ [34] ++ 44 :: key).take (nameText name ++ [34]).length = nameText name ++ [34] := List.take_left
  have hopen : openBefore [(123, 0)] (nameText name ++ [34]).length = [(123, 0)] := by
    rw [openBefore, List.dropWhile_cons_of_neg]
    rw [List.length_append]
    simp
  have hcut (state : IteratorState) (hstate : state = .awaitingKey ∨ state = .processingKey ∨ state = .awaitingColon) :
      cutInput ⟨nameText name ++ [34] ++ 44 :: key, position, state, ⟨(nameText name ++ [34]).length, .processingObject⟩, [(123, 0)]⟩ false =
        (nameText name ++ [34], keyed name key) := by
    rcases hstate with rfl | rfl | rfl
    all_goals
      rw [cutInput]
      dsimp only
      rw [if_pos hlength, htake, hopen]
      rfl
  have hclosed : nameText name ++ [34] ++ closings (keyed name key).openCloseStack = membersText [nameMember name] := by
    rw [← nameText_closed hname, List.append_assoc]
    rfl
  refine document_open [nameMember name] ?_ ?_ (hcut state hstate) hclosed hrj (name_gap name)
  · rcases hstate with rfl | rfl | rfl
    all_goals exact fun h => IteratorState.noConfusion h
  · rcases hstate with rfl | rfl | rfl
    all_goals exact fun h => IteratorState.noConfusion h

theorem add_comma : (named name).add rj [44] = some (.obj [(bytes "name", .str name)], keyed name []) := by
  have hstep : iterateAll { named name with buffer := (named name).buffer ++ [44] } false ([] ++ [44]) = some (separated name [], false) := by
    rw [List.nil_append, iterateAll_comma (b := { named name with buffer := (named name).buffer ++ [44] }) rfl rfl rfl rfl]
    rfl
  rw [add_eq (List.drop_length ..) (Nat.le_refl _) hstep]
  exact document_keyed hrj hname rfl (Or.inl rfl) rfl rfl

omit hrj hname in
theorem iterate_keyBlank (buffer : Str) (position : Nat) (separator : LastSeparatorInfo) (stack : List (Byte × Nat)) :
    iterate ⟨buffer, position, .awaitingKey, separator, stack⟩ 32 = some (⟨buffer, position, .awaitingKey, separator, stack⟩, false) := rfl

omit hrj hname in
theorem iterate_keyQuote (buffer : Str) (position : Nat) (separator : LastSeparatorInfo) (stack : List (Byte × Nat)) :
    iterate ⟨buffer, position, .awaitingKey, separator, stack⟩ 34 = some (⟨buffer, position, .processingKey, separator, stack⟩, false) := rfl

omit hrj hname in
/-- Behind the comma comes a blank, the quote, and part of the key. -/
theorem iterateAll_keyOpen (name : Str) {key : Str} (hkey : ∀ c ∈ key, c ≠ 34 ∧ c ≠ 92) (rest : Str) :
    (separated name (32 :: 34 :: (key ++ rest))).iterateAll false (32 :: 34 :: key) =
      some ({ separated name (32 :: 34 :: (key ++ rest)) with
        currentPosition := (nameText name ++ [34] ++ 44 :: 32 :: 34 :: key).length, state := .processingKey }, false) := by
  have hopen : (IteratorState.awaitingKey : IteratorState) ≠ .ended := by decide
  have hposition : (nameText name ++ [34]).length + 1 + 1 + 1 + key.length = (nameText name ++ [34] ++ 44 :: 32 :: 34 :: key).length := by
    simp only [List.length_append, List.length_cons]
    omega
  rw [separated, iterateAll_cons (b := ⟨_, _, .awaitingKey, _, _⟩) hopen (iterate_keyBlank _ _ _ _), advance,
    iterateAll_cons (b := ⟨_, _, .awaitingKey, _, _⟩) hopen (iterate_keyQuote _ _ _ _), advance, iterateAll_plain (Or.inr rfl) hkey]
  dsimp only
  rw [hposition]

omit hrj hname in
theorem plain_arguments : ∀ c ∈ bytes "arguments", c ≠ 34 ∧ c ≠ 92 := by
  have hword : (bytes "arguments").all isWordChar = true := by decide
  intro c hc
  have hc := List.all_eq_true.mp hword c hc
  exact ⟨ne_of_isWordChar hc (by decide), ne_of_isWordChar hc (by decide)⟩

omit hrj hname in
theorem iterateAll_keyClosed (name rest : Str) :
    (separated name (bytes " \"arguments\"" ++ rest)).iterateAll false (bytes " \"arguments\"") =
      some ({ separated name (bytes " \"arguments\"" ++ rest) with
        currentPosition := (nameText name ++ [34] ++ 44 :: bytes " \"arguments\"").length, state := .awaitingColon }, false) := by
  have hkey : bytes " \"arguments\"" = (32 :: 34 :: bytes "arguments") ++ [34] := rfl
  have hplain := plain_arguments
  have hrest : bytes " \"arguments\"" ++ rest = 32 :: 34 :: (bytes "arguments" ++ 34 :: rest) := rfl
  have hcloses : Closes (nameText name ++ [34] ++ 44 :: 32 :: 34 :: bytes "arguments") := by
    have hquote : Closes (nameText name ++ [34]) := Closes.concat (by decide)
    refine hquote.append fun c hc => ?_
    rcases List.mem_cons.mp hc with rfl | hc
    · decide
    rcases List.mem_cons.mp hc with rfl | hc
    · decide
    rcases List.mem_cons.mp hc with rfl | hc
    · decide
    · exact (hplain c hc).2
  have hbuffer : nameText name ++ [34] ++ 44 :: 32 :: 34 :: (bytes "arguments" ++ 34 :: rest) =
      (nameText name ++ [34] ++ 44 :: 32 :: 34 :: bytes "arguments") ++ 34 :: rest := by
    simp only [List.append_assoc, List.cons_append]
  have hlast (position : Nat) (hposition : position = (nameText name ++ [34] ++ 44 :: 32 :: 34 :: bytes "arguments").length)
      (separator : LastSeparatorInfo) : iterate ⟨nameText name ++ [34] ++ 44 :: 32 :: 34 :: (bytes "arguments" ++ 34 :: rest),
        position, .processingKey, separator, [(123, 0)]⟩ 34 =
      some (⟨nameText name ++ [34] ++ 44 :: 32 :: 34 :: (bytes "arguments" ++ 34 :: rest), position, .awaitingColon, separator, [(123, 0)]⟩,
        false) := by
    have hbefore : (nameText name ++ [34] ++ 44 :: 32 :: 34 :: (bytes "arguments" ++ 34 :: rest)).take position =
        nameText name ++ [34] ++ 44 :: 32 :: 34 :: bytes "arguments" := by
      rw [hbuffer, hposition, List.take_left]
    rw [Closes] at hcloses
    rw [iterate_quoted (b := ⟨_, _, .processingKey, _, _⟩) (Or.inr rfl), quoted_quote hbefore, if_neg (by omega)]
    rfl
  have hopen : (IteratorState.processingKey : IteratorState) ≠ .ended := by decide
  rw [hrest, hkey, iterateAll_append, iterateAll_keyOpen name hplain, Option.bind_some, separated]
  dsimp only
  rw [iterateAll_cons (b := ⟨_, _, .processingKey, _, _⟩) hopen (hlast _ rfl _), advance]
  have hlength : (nameText name ++ [34] ++ 44 :: 32 :: 34 :: bytes "arguments").length + 1 =
      (nameText name ++ [34] ++ 44 :: (32 :: 34 :: bytes "arguments" ++ [34])).length := by
    simp only [List.length_append, List.length_cons, List.length_nil]
    omega
  rw [← hlength]
  rfl

omit hrj hname in
/-- Whatever is there of the second key, it is not complete without its colon. -/
theorem iterateAll_key (name : Str) {key : Str} (hkey : key <+: bytes " \"arguments\"") :
    ∃ position state, (state = .awaitingKey ∨ state = .processingKey ∨ state = .awaitingColon) ∧
      (separated name key).iterateAll false key =
        some ({ separated name key with currentPosition := position, state := state }, false) := by
  have hopen : bytes " \"arguments\"" = 32 :: 34 :: (bytes "arguments" ++ [34]) := rfl
  rw [hopen] at hkey
  rcases List.prefix_cons_iff.mp hkey with rfl | ⟨quoted, rfl, hquoted⟩
  · exact ⟨_, _, Or.inl rfl, rfl⟩
  rcases List.prefix_cons_iff.mp hquoted with rfl | ⟨letters, rfl, hletters⟩
  · have hopen : (IteratorState.awaitingKey : IteratorState) ≠ .ended := by decide
    refine ⟨(nameText name ++ [34]).length + 1 + 1, .awaitingKey, Or.inl rfl, ?_⟩
    rw [separated, iterateAll_cons (b := ⟨_, _, .awaitingKey, _, _⟩) hopen (iterate_keyBlank _ _ _ _), advance]
    rfl
  rcases List.prefix_concat_iff.mp hletters with rfl | hletters
  · have hclosed := iterateAll_keyClosed name []
    rw [List.append_nil] at hclosed
    exact ⟨_, _, Or.inr (Or.inr rfl), hclosed⟩
  · have hplain : ∀ c ∈ letters, c ≠ 34 ∧ c ≠ 92 := fun c hc => plain_arguments c (hletters.subset hc)
    have hpart := iterateAll_keyOpen name hplain []
    rw [List.append_nil] at hpart
    exact ⟨_, _, Or.inr (Or.inl rfl), hpart⟩

/-- The second key and what stands before it. -/
theorem add_keyed {key : Str} {c : Byte} (hkey : key ++ [c] <+: bytes " \"arguments\"") :
    (keyed name key).add rj [c] = some (.obj [(bytes "name", .str name)], keyed name (key ++ [c])) := by
  obtain ⟨position, state, hstate, hread⟩ := iterateAll_key name hkey
  have hbuffer : nameText name ++ [34] ++ 44 :: key ++ [c] = nameText name ++ [34] ++ 44 :: (key ++ [c]) := by
    simp only [List.append_assoc, List.cons_append]
  have hleft : (keyed name key).buffer.drop (keyed name key).currentPosition = 44 :: key := List.drop_left
  have hposition : (keyed name key).currentPosition ≤ (keyed name key).buffer.length :=
    (List.prefix_append (nameText name ++ [34]) (44 :: key)).length_le
  have hstep : iterateAll { keyed name key with buffer := (keyed name key).buffer ++ [c] } false (44 :: key ++ [c]) =
      some ({ separated name (key ++ [c]) with currentPosition := position, state := state }, false) := by
    rw [List.cons_append, iterateAll_comma (b := { keyed name key with buffer := (keyed name key).buffer ++ [c] }) hbuffer rfl rfl rfl]
    exact hread
  rw [add_eq hleft hposition hstep]
  exact document_keyed hrj hname rfl hstate rfl rfl

omit hrj hname in
theorem arguments_gap (gap : Str) (hgap : ∀ c ∈ gap, Json.isBlank c = true) (name : Str) (value : Option Str) :
    ∀ member ∈ [nameMember name, argumentsMember gap value], ∀ c ∈ member.gap, Json.isBlank c = true := by
  intro member hmember
  rcases List.mem_cons.mp hmember with rfl | hmember
  · exact name_gap name _ List.mem_cons_self
  · rw [List.mem_singleton.mp hmember]
    exact hgap

omit hrj hname in
theorem iterate_colon (buffer : Str) (position : Nat) (separator : LastSeparatorInfo) (stack : List (Byte × Nat)) :
    iterate ⟨buffer, position, .awaitingColon, separator, stack⟩ 58 = some (⟨buffer, position, .awaitingValue, separator, stack⟩, false) := rfl

/-- The second colon. -/
theorem add_colon : (keyed name (bytes " \"arguments\"")).add rj [58] =
    some (.obj [(bytes "name", .str name), (bytes "arguments", .null)], awaiting name) := by
  have hbuffer : nameText name ++ [34] ++ 44 :: bytes " \"arguments\"" ++ [58] = nameText name ++ [34] ++ 44 :: (bytes " \"arguments\"" ++ [58]) := by
    simp only [List.append_assoc, List.cons_append]
  have hleft : (keyed name (bytes " \"arguments\"")).buffer.drop (keyed name (bytes " \"arguments\"")).currentPosition =
      44 :: bytes " \"arguments\"" := List.drop_left
  have hposition : (keyed name (bytes " \"arguments\"")).currentPosition ≤ (keyed name (bytes " \"arguments\"")).buffer.length :=
    (List.prefix_append (nameText name ++ [34]) (44 :: bytes " \"arguments\"")).length_le
  have hopen : (IteratorState.awaitingColon : IteratorState) ≠ .ended := by decide
  have hlength : (nameText name ++ [34] ++ 44 :: bytes " \"arguments\"").length + 1 = (argumentsOpen name).length := by
    rw [argumentsOpen]
    simp only [List.length_append]
    rfl
  have hstep : iterateAll { keyed name (bytes " \"arguments\"") with buffer := (keyed name (bytes " \"arguments\"")).buffer ++ [58] } false
      (44 :: bytes " \"arguments\"" ++ [58]) = some (awaiting name, false) := by
    rw [List.cons_append, iterateAll_comma (b := { keyed name (bytes " \"arguments\"") with
      buffer := (keyed name (bytes " \"arguments\"")).buffer ++ [58] }) hbuffer rfl rfl rfl, iterateAll_append, iterateAll_keyClosed,
      Option.bind_some, separated]
    dsimp only
    rw [iterateAll_cons (b := ⟨_, _, .awaitingColon, _, _⟩) hopen (iterate_colon _ _ _ _), advance]
    dsimp only
    rw [hlength]
    rfl
  have hclosed : argumentsOpen name ++ bytes "null" ++ [125] = membersText [nameMember name, argumentsMember [] none] :=
    argumentsOpen_closed hname [] none
  rw [add_eq hleft hposition hstep]
  exact document_open [nameMember name, argumentsMember [] none] (fun h => IteratorState.noConfusion h) (fun h => IteratorState.noConfusion h) rfl hclosed hrj
    (arguments_gap [] (fun c hc => absurd hc List.not_mem_nil) name none)

omit hrj hname in
theorem iterate_valueBlank (buffer : Str) (position : Nat) (separator : LastSeparatorInfo) (stack : List (Byte × Nat)) :
    iterate ⟨buffer, position, .awaitingValue, separator, stack⟩ 32 = some (⟨buffer, position, .awaitingValue, separator, stack⟩, false) := rfl

omit hrj hname in
theorem iterate_valueQuote (buffer : Str) (position : Nat) (separator : LastSeparatorInfo) (stack : List (Byte × Nat)) :
    iterate ⟨buffer, position, .awaitingValue, separator, stack⟩ 34 =
      some (⟨buffer, position, .processingString, separator, (34, position) :: stack⟩, false) := rfl

omit hrj in
theorem collecting_closed {text : Str} (htext : ∀ c ∈ text, Json.isTextByte c = true) :
    argumentsOpen name ++ [32, 34] ++ escapeSpecialCharacters text ++ [34, 125] =
      membersText [nameMember name, argumentsMember [32] (some text)] := by
  rw [← argumentsOpen_closed hname, escapeSpecialCharacters_eq htext, argumentsMember]
  simp only [CallMember.valueText, Json.quoted, List.append_assoc, List.cons_append, List.nil_append]

theorem document_collecting {text : Str} (htext : ∀ c ∈ text, Json.isTextByte c = true) :
    (collecting name text).document rj false =
      some (.obj [(bytes "name", .str name), (bytes "arguments", .str text)], collecting name text) :=
  document_open [nameMember name, argumentsMember [32] (some text)] (fun h => IteratorState.noConfusion h) (fun h => IteratorState.noConfusion h) rfl
    (collecting_closed hname htext) hrj
    (arguments_gap [32] (fun c hc => by rw [List.mem_singleton.mp hc]; rfl) name (some text))

/-- The blank behind the colon, with the quote that is added to it. -/
theorem add_awaiting : (awaiting name).add rj [32, 34] =
    some (.obj [(bytes "name", .str name), (bytes "arguments", .str [])], collecting name []) := by
  have hopen : (IteratorState.awaitingValue : IteratorState) ≠ .ended := by decide
  have hstep : iterateAll { awaiting name with buffer := (awaiting name).buffer ++ [32, 34] } false ([] ++ [32, 34]) =
      some (collecting name [], false) := by
    have hnil : argumentsOpen name ++ [32, 34] ++ escapeSpecialCharacters [] = argumentsOpen name ++ [32, 34] := List.append_nil _
    rw [List.nil_append, awaiting]
    dsimp only
    rw [iterateAll_cons (b := ⟨_, _, .awaitingValue, _, _⟩) hopen (iterate_valueBlank _ _ _ _), advance,
      iterateAll_cons (b := ⟨_, _, .awaitingValue, _, _⟩) hopen (iterate_valueQuote _ _ _ _), advance, collecting, hnil]
    simp only [iterateAll, List.length_append, List.length_cons, List.length_nil]
  rw [add_eq (List.drop_length ..) (Nat.le_refl _) hstep]
  exact document_collecting hrj hname fun c hc => absurd hc List.not_mem_nil

omit hrj hname in
theorem closes_collecting (name text : Str) : Closes (argumentsOpen name ++ [32, 34] ++ escapeSpecialCharacters text) := by
  have hquote : Closes (argumentsOpen name ++ [32, 34]) := by
    have happend : argumentsOpen name ++ [32, 34] = argumentsOpen name ++ [32] ++ [34] := by rw [List.append_assoc]; rfl
    rw [happend]
    exact Closes.concat (by decide)
  have hbuffer : argumentsOpen name ++ [32, 34] ++ escapeSpecialCharacters text =
      argumentsOpen name ++ [32, 34] ++ (escapeSpecialCharacters text ++ []) := by rw [List.append_nil]
  exact (iterateAll_escapedText (b := ⟨_, _, .processingString, ⟨0, .begin⟩, []⟩) rfl text hbuffer rfl hquote).2

/-- More of the arguments, escaped. -/
theorem add_collecting {text more : Str} (htext : ∀ c ∈ text, Json.isTextByte c = true) (hmore : ∀ c ∈ more, Json.isTextByte c = true) :
    (collecting name text).add rj (escapeSpecialCharacters more) =
      some (.obj [(bytes "name", .str name), (bytes "arguments", .str (text ++ more))], collecting name (text ++ more)) := by
  have hescapes : escapeSpecialCharacters (text ++ more) = escapeSpecialCharacters text ++ escapeSpecialCharacters more := List.flatMap_append
  have hbuffer : (collecting name text).buffer ++ escapeSpecialCharacters more =
      argumentsOpen name ++ [32, 34] ++ escapeSpecialCharacters text ++ (escapeSpecialCharacters more ++ []) := by
    rw [List.append_nil]
    rfl
  have hread := (iterateAll_escapedText (b := { collecting name text with buffer := (collecting name text).buffer ++ escapeSpecialCharacters more })
    rfl more hbuffer rfl (closes_collecting name text)).1
  have hstep : iterateAll { collecting name text with buffer := (collecting name text).buffer ++ escapeSpecialCharacters more } false
      ([] ++ escapeSpecialCharacters more) = some (collecting name (text ++ more), false) := by
    rw [List.nil_append, hread, collecting, collecting, hescapes, ← List.append_assoc]
  rw [add_eq (List.drop_length ..) (Nat.le_refl _) hstep]
  refine document_collecting hrj hname fun c hc => ?_
  rcases List.mem_append.mp hc with hc | hc
  · exact htext c hc
  · exact hmore c hc

omit hrj hname in
theorem iterate_closingBrace (buffer : Str) (position : Nat) (separator : LastSeparatorInfo) :
    iterate ⟨buffer, position, .processingObject, separator, [(123, 0)]⟩ 125 = some (⟨buffer, position, .ended, separator, []⟩, false) := rfl

/-- The end of the call, with the quote before its brace. -/
theorem add_collected {text : Str} (htext : ∀ c ∈ text, Json.isTextByte c = true) :
    (collecting name text).add rj [34, 125] =
      some (.obj [(bytes "name", .str name), (bytes "arguments", .str text)], collected name text) := by
  have hquote : iterate { collecting name text with buffer := (collecting name text).buffer ++ [34, 125] } 34 = some ({ collecting name text with
      buffer := (collecting name text).buffer ++ [34, 125], openCloseStack := [(123, 0)], state := .processingObject }, false) := by
    have hbefore : ((collecting name text).buffer ++ [34, 125]).take (collecting name text).currentPosition = (collecting name text).buffer :=
      List.take_left
    have hcloses := closes_collecting name text
    rw [Closes] at hcloses
    rw [iterate_quoted (Or.inl rfl), quoted_quote hbefore, if_neg]
    · rfl
    · show ¬backslashCount (argumentsOpen name ++ [32, 34] ++ escapeSpecialCharacters text) % 2 = 1
      omega
  have hstring : (IteratorState.processingString : IteratorState) ≠ .ended := by decide
  have hobject : (IteratorState.processingObject : IteratorState) ≠ .ended := by decide
  have hstep : iterateAll { collecting name text with buffer := (collecting name text).buffer ++ [34, 125] } false ([] ++ [34, 125]) =
      some (collected name text, false) := by
    rw [List.nil_append, iterateAll_cons (b := { collecting name text with buffer := (collecting name text).buffer ++ [34, 125] }) hstring hquote,
      advance]
    dsimp only [collecting]
    rw [iterateAll_cons (b := ⟨_, _, .processingObject, _, _⟩) hobject (iterate_closingBrace _ _ _), advance, collected]
    simp only [iterateAll, List.length_append, List.length_cons, List.length_nil]
  rw [add_eq (List.drop_length ..) (Nat.le_refl _) hstep]
  have hgap := arguments_gap [32] (fun c hc => by rw [List.mem_singleton.mp hc]; rfl) name (some text)
  have hended : (collected name text).state = .ended ∧ (collected name text).openCloseStack.isEmpty = true := ⟨rfl, rfl⟩
  have hwhole : (collected name text).currentPosition = (collected name text).buffer.length := rfl
  have hbuffer : (collected name text).buffer = membersText [nameMember name, argumentsMember [32] (some text)] := collecting_closed hname htext
  rw [document, if_pos hended, if_pos hwhole, hbuffer, RapidJson.cStr_of_noNul (zero_notMem_membersText hgap), document_members hrj hgap]
  rfl

end Adding

end Stages

end PartialJsonBuilder

end ModelServer
