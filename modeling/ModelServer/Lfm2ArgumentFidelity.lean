import ModelServer.DelimiterSkipping
import ModelServer.Lfm2Values

/-! The arguments of a call, found again in its text. -/

namespace ModelServer.Lfm2ToolParser

open SpecialChars

section Literals

variable {target : Str} {first : Byte}

theorem plain_bytes (s : PlainText) : ∀ c ∈ s.text, c ≠ 39 ∧ c ≠ 92 := by
  intro c hc
  refine ⟨quote_ne_of_isPlain s.plain c hc, ?_⟩
  rintro rfl
  exact absurd (s.plain 92 hc) (by decide)

theorem ordinary_integerText (n : Int) : ∀ c ∈ Json.integerText n, Ordinary c ∧ c ≠ 44 ∧ c ≠ 41 := by
  have hforeign (byte : Byte) (h : Json.NotNumeric byte) : byte ∉ Json.integerText n :=
    Json.notMem_of_readNumber h (Json.readNumber_integerText n)
  intro c hc
  have hne (byte : Byte) (h : Json.NotNumeric byte) : c ≠ byte := by
    rintro rfl
    exact hforeign c h hc
  exact ⟨⟨hne _ ⟨rfl, by decide⟩, hne _ ⟨rfl, by decide⟩, hne _ ⟨rfl, by decide⟩, hne _ ⟨rfl, by decide⟩, hne _ ⟨rfl, by decide⟩,
    hne _ ⟨rfl, by decide⟩⟩, hne _ ⟨rfl, by decide⟩, hne _ ⟨rfl, by decide⟩⟩

/-- A word of ordinary bytes, none of which starts the target. -/
theorem skips_word (htarget : target.head? = some first) (hfirst : first = 44 ∨ first = 41) {text : Str}
    (h : ∀ c ∈ text, Ordinary c ∧ c ≠ 44 ∧ c ≠ 41) (d : SpecialChars) (prev : Option Byte) (after : Str) :
    Skips target d d prev text after := by
  refine Skips.ordinary htarget (fun c hc => (h c hc).1) (Or.inr fun c hc => ?_)
  rcases hfirst with rfl | rfl
  · exact (h c hc).2.1
  · exact (h c hc).2.2

instance (c : Byte) : Decidable (Ordinary c) := inferInstanceAs (Decidable (_ ∧ _))

theorem bounded_cons {c : Byte} (h : isWordChar c = false ∧ isspace c = false) (text : Str) : Bounded (c :: text) := by
  rintro _ ⟨⟩
  exact h

theorem mayOpen_some {c : Byte} (h : isWordChar c = false ∧ c ≠ 92) : MayOpen (some c) :=
  ⟨h.1, fun hsame => h.2 (Option.some.inj hsame)⟩

/-- A comma and a blank within a container. -/
theorem skips_gap (htarget : target.head? = some first) {d : SpecialChars} (hinside : d.outside = false) (prev : Option Byte) (after : Str) :
    Skips target d d prev [44, 32] after :=
  Skips.ordinary htarget (forall_of_all (by decide)) (Or.inl hinside)

mutual

theorem skips_literal (htarget : target.head? = some first) (hfirst : first = 44 ∨ first = 41) (v : Literal) {d : SpecialChars}
    (prev : Option Byte) {after : Str} (hd : Unquoted d) (hprev : MayOpen prev) (hafter : Bounded after) :
    Skips target d d prev (v.textWith 39) after := by
  cases v with
  | none => exact skips_word htarget hfirst (forall_of_all (by decide)) d prev after
  | bool b =>
    cases b with
    | true => exact skips_word htarget hfirst (forall_of_all (by decide)) d prev after
    | false => exact skips_word htarget hfirst (forall_of_all (by decide)) d prev after
  | int n => exact skips_word htarget hfirst (ordinary_integerText n) d prev after
  | str s =>
    have hne : first ≠ 39 := by
      rcases hfirst with rfl | rfl
      · decide
      · decide
    exact Skips.quoted htarget hne hd hprev (plain_bytes s) hafter
  | list items =>
    refine Skips.wrapped htarget hd (Or.inl ⟨rfl, rfl⟩) ?_ fun d' hd' hinside => ?_
    · rcases hfirst with rfl | rfl
      · decide
      · decide
    · exact skips_items htarget hfirst items _ hd' hinside (mayOpen_some (by decide)) (bounded_cons (by decide) after)
  | dict members =>
    refine Skips.wrapped htarget hd (Or.inr ⟨rfl, rfl⟩) ?_ fun d' hd' hinside => ?_
    · rcases hfirst with rfl | rfl
      · decide
      · decide
    · exact skips_members htarget hfirst members _ hd' hinside (mayOpen_some (by decide)) (bounded_cons (by decide) after)

theorem skips_items (htarget : target.head? = some first) (hfirst : first = 44 ∨ first = 41) (items : List Literal) {d : SpecialChars}
    (prev : Option Byte) {after : Str} (hd : Unquoted d) (hinside : d.outside = false) (hprev : MayOpen prev) (hafter : Bounded after) :
    Skips target d d prev (Json.joined [32] (itemTextsWith 39 items)) after := by
  cases items with
  | nil => exact Skips.nil
  | cons v vs =>
    cases hvs : vs with
    | nil =>
      have hvalue := skips_literal htarget hfirst v prev hd hprev hafter
      rw [itemTextsWith, itemTextsWith, Json.joined, List.flatMap_nil, List.append_nil]
      exact hvalue
    | cons w ws =>
      have hvalue := skips_literal htarget hfirst v prev hd hprev
        (bounded_cons (c := 44) (by decide) ([32] ++ Json.joined [32] (itemTextsWith 39 vs) ++ after))
      have hlater := skips_items htarget hfirst vs (some 32) hd hinside (mayOpen_some (by decide)) hafter
      have hgap := skips_gap htarget hinside (lastByte prev (v.textWith 39)) (Json.joined [32] (itemTextsWith 39 vs) ++ after)
      rw [← hvs, itemTextsWith, hvs, itemTextsWith, Json.joined_cons_cons, ← itemTextsWith, ← hvs]
      exact hvalue.append (hgap.append hlater)

theorem skips_members (htarget : target.head? = some first) (hfirst : first = 44 ∨ first = 41) (members : List (PlainText × Literal))
    {d : SpecialChars} (prev : Option Byte) {after : Str} (hd : Unquoted d) (hinside : d.outside = false) (hprev : MayOpen prev)
    (hafter : Bounded after) : Skips target d d prev (Json.joined [32] (memberTextsWith 39 members)) after := by
  cases members with
  | nil => exact Skips.nil
  | cons member ms =>
    obtain ⟨k, v⟩ := member
    have hne : first ≠ 39 := by
      rcases hfirst with rfl | rfl
      · decide
      · decide
    have hmember {behind : Str} (hbehind : Bounded behind) :
        Skips target d d prev (39 :: (k.text ++ [39]) ++ 58 :: 32 :: v.textWith 39) behind := by
      have hkey : Skips target d d prev (39 :: (k.text ++ [39])) (58 :: 32 :: v.textWith 39 ++ behind) :=
        Skips.quoted htarget hne hd hprev (plain_bytes k) (bounded_cons (by decide) _)
      have hcolon : Skips target d d (lastByte prev (39 :: (k.text ++ [39]))) [58, 32] (v.textWith 39 ++ behind) :=
        Skips.ordinary htarget (forall_of_all (by decide)) (Or.inl hinside)
      have hvalue := skips_literal htarget hfirst v (some 32) hd (mayOpen_some (by decide)) hbehind
      exact hkey.append (hcolon.append hvalue)
    cases hms : ms with
    | nil =>
      rw [memberTextsWith, memberTextsWith, Json.joined, List.flatMap_nil, List.append_nil]
      exact hmember hafter
    | cons next rest =>
      have hlater := skips_members htarget hfirst ms (some 32) hd hinside (mayOpen_some (by decide)) hafter
      have hgap := skips_gap htarget hinside (lastByte prev (39 :: (k.text ++ [39]) ++ 58 :: 32 :: v.textWith 39))
        (Json.joined [32] (memberTextsWith 39 ms) ++ after)
      have hall := (hmember (bounded_cons (c := 44) (by decide) ([32] ++ Json.joined [32] (memberTextsWith 39 ms) ++ after))).append
        (hgap.append hlater)
      obtain ⟨k', v'⟩ := next
      rw [hms] at hall
      rw [memberTextsWith, memberTextsWith, Json.joined_cons_cons]
      exact hall

end

end Literals

section Arguments

/-- An argument of a call. -/
structure NamedLiteral where
  name : Str
  word : ∀ c ∈ name, isWordChar c = true
  value : Literal

def NamedLiteral.text (argument : NamedLiteral) : Str := argument.name ++ 61 :: argument.value.text

/-- The arguments of a call as they are written. -/
def argumentsText (arguments : List NamedLiteral) : Str := separated (arguments.map NamedLiteral.text)

def NamedLiteral.parsed (argument : NamedLiteral) : Argument := ⟨argument.name, argument.value.text⟩

theorem ordinary_of_wordChar {c : Byte} (h : isWordChar c = true) : Ordinary c ∧ c ≠ 44 ∧ c ≠ 41 ∧ c ≠ 61 := by
  have hne (byte : Byte) (hbyte : isWordChar byte = false) : c ≠ byte := by
    rintro rfl
    rw [h] at hbyte
    cases hbyte
  exact ⟨⟨hne _ (by decide), hne _ (by decide), hne _ (by decide), hne _ (by decide), hne _ (by decide), hne _ (by decide)⟩,
    hne _ (by decide), hne _ (by decide), hne _ (by decide)⟩

theorem parseSingleArgument_text (argument : NamedLiteral) : parseSingleArgument argument.text = argument.parsed := by
  have hat : Occurrence.indexOf? (bytes "=") argument.text = some argument.name.length := by
    have hfound (name text : Str) (hname : ∀ c ∈ name, c ≠ 61) : Occurrence.indexOf? (bytes "=") (name ++ 61 :: text) = some name.length := by
      induction name with
      | nil => rfl
      | cons c name ih =>
        have hno : ¬(bytes "=").isPrefixOf (c :: (name ++ 61 :: text)) = true := fun h =>
          hname c List.mem_cons_self (List.cons_prefix_cons.mp (List.isPrefixOf_iff_prefix.mp h)).1.symm
        rw [List.cons_append, Occurrence.indexOf?, if_neg hno, ih fun d hd => hname d (List.mem_cons_of_mem c hd)]
        rfl
    exact hfound _ _ fun c hc => (ordinary_of_wordChar (argument.word c hc)).2.2.2
  rw [parseSingleArgument, hat]
  show Argument.mk (argument.text.take argument.name.length) (argument.text.drop (argument.name.length + 1)) = argument.parsed
  rw [NamedLiteral.text, List.take_left, ← List.drop_drop, List.drop_left]
  rfl

variable {target : Str} {first : Byte}

theorem unquoted_start : Unquoted {} := ⟨rfl, rfl, Int.le_refl 0, Int.le_refl 0⟩

theorem skips_argument (htarget : target.head? = some first) (hfirst : first = 44 ∨ first = 41) (argument : NamedLiteral) (prev : Option Byte)
    {after : Str} (hafter : Bounded after) : Skips target {} {} prev argument.text after := by
  have hname : Skips target {} {} prev argument.name (61 :: argument.value.text ++ after) :=
    skips_word htarget hfirst (fun c hc => by
      obtain ⟨hordinary, hcomma, hparenthesis, -⟩ := ordinary_of_wordChar (argument.word c hc)
      exact ⟨hordinary, hcomma, hparenthesis⟩) _ _ _
  have hequal : Skips target {} {} (lastByte prev argument.name) [61] (argument.value.text ++ after) :=
    skips_word htarget hfirst (forall_of_all (by decide)) _ _ _
  have hvalue := skips_literal htarget hfirst argument.value (some 61) unquoted_start (mayOpen_some (by decide)) hafter
  rw [← text_eq_textWith] at hvalue
  exact hname.append (hequal.append hvalue)

/-- The text up to the separator is the first argument; without one it is all there is. -/
theorem scan_separator (argument : NamedLiteral) (prev : Option Byte) (rest : Str) :
    scan TOOL_SEPARATOR_STR {} prev (argument.text ++ (44 :: 32 :: rest)) = some argument.text.length ∧
      scan TOOL_SEPARATOR_STR {} prev argument.text = none := by
  have hmore : Skips TOOL_SEPARATOR_STR {} {} prev argument.text (44 :: 32 :: rest) :=
    skips_argument rfl (Or.inl rfl) argument prev (bounded_cons (by decide) (32 :: rest))
  have hlast : Skips TOOL_SEPARATOR_STR {} {} prev argument.text [] :=
    skips_argument rfl (Or.inl rfl) argument prev fun _ hc => by cases hc
  rw [Skips] at hmore hlast
  rw [List.append_nil] at hlast
  refine ⟨?_, hlast⟩
  have hhere : (SpecialChars.outside {} && TOOL_SEPARATOR_STR.isPrefixOf (44 :: 32 :: rest)) = true := rfl
  rw [hmore, scan, if_pos hhere]
  show some (0 + argument.text.length) = _
  rw [Nat.zero_add]

theorem argumentsText_cons_cons (first second : NamedLiteral) (rest : List NamedLiteral) :
    argumentsText (first :: second :: rest) = first.text ++ (44 :: 32 :: argumentsText (second :: rest)) := by
  rw [argumentsText, argumentsText, separated_eq_joined, separated_eq_joined, List.map_cons, List.map_cons, Json.joined_cons_cons]
  rfl

/-- The arguments that are left of the text are parsed one after the other. -/
theorem parseArgumentsFrom_text (str : Str) (arguments : List NamedLiteral) (budget argPos : Nat) (hbudget : arguments.length ≤ budget)
    (hstr : str.drop argPos = argumentsText arguments) : parseArgumentsFrom str budget argPos = arguments.map NamedLiteral.parsed := by
  induction arguments generalizing budget argPos with
  | nil =>
    have hend : ¬argPos < str.length := Nat.not_lt_of_le (List.drop_eq_nil_iff.mp hstr)
    cases budget with
    | zero => rfl
    | succ budget =>
      rw [parseArgumentsFrom, if_neg hend]
      rfl
  | cons argument arguments ih =>
    cases budget with
    | zero => exact absurd hbudget (Nat.not_succ_le_zero _)
    | succ budget =>
      have hlength : 0 < argument.text.length := by
        rw [NamedLiteral.text, List.length_append, List.length_cons]
        omega
      cases arguments with
      | nil =>
        have htext : str.drop argPos = argument.text := hstr
        have hstart : argPos < str.length := by
          have hdrop := congrArg List.length htext
          rw [List.length_drop] at hdrop
          omega
        have hfind : findInStringRespectingSpecialChars str TOOL_SEPARATOR_STR argPos = none := by
          rw [findInStringRespectingSpecialChars, htext, (scan_separator argument _ []).2]
          rfl
        rw [parseArgumentsFrom, if_pos hstart, hfind]
        dsimp only
        rw [htext, parseSingleArgument_text]
        rfl
      | cons next arguments =>
        have htext : str.drop argPos = argument.text ++ (44 :: 32 :: argumentsText (next :: arguments)) :=
          hstr.trans (argumentsText_cons_cons ..)
        have hstart : argPos < str.length := by
          have hdrop := congrArg List.length htext
          rw [List.length_drop, List.length_append] at hdrop
          omega
        have hfind : findInStringRespectingSpecialChars str TOOL_SEPARATOR_STR argPos = some (argPos + argument.text.length) := by
          rw [findInStringRespectingSpecialChars, htext, (scan_separator argument _ _).1]
          rfl
        have hpart : substr str argPos (argPos + argument.text.length - argPos) = argument.text := by
          rw [substr, htext, Nat.add_sub_cancel_left, List.take_left]
        have hrest : str.drop (argPos + argument.text.length + TOOL_SEPARATOR_STR.length) = argumentsText (next :: arguments) := by
          rw [Nat.add_assoc, ← List.drop_drop, htext, ← List.drop_drop, List.drop_left]
          rfl
        rw [parseArgumentsFrom, if_pos hstart, hfind]
        dsimp only
        rw [hpart, parseSingleArgument_text, ih budget _ (Nat.le_of_succ_le_succ hbudget) hrest]
        rfl

theorem length_le_argumentsText (arguments : List NamedLiteral) : arguments.length ≤ (argumentsText arguments).length := by
  induction arguments with
  | nil => exact Nat.le_refl 0
  | cons argument arguments ih =>
    have hlength : 0 < argument.text.length := by
      rw [NamedLiteral.text, List.length_append, List.length_cons]
      omega
    cases arguments with
    | nil => exact hlength
    | cons next arguments =>
      rw [argumentsText_cons_cons]
      simp only [List.length_append, List.length_cons] at ih ⊢
      omega

theorem parseArguments_text (arguments : List NamedLiteral) :
    parseArguments (argumentsText arguments) = arguments.map NamedLiteral.parsed :=
  parseArgumentsFrom_text _ arguments _ 0 (length_le_argumentsText arguments) rfl

/-- The parenthesis that is found is the one behind the arguments. -/
theorem scan_parenthesis (arguments : List NamedLiteral) (prev : Option Byte) (rest : Str) :
    scan TOOL_ARGS_END_INDICATOR {} prev (argumentsText arguments ++ 41 :: rest) = some (argumentsText arguments).length := by
  have hskips : Skips TOOL_ARGS_END_INDICATOR {} {} prev (argumentsText arguments) (41 :: rest) := by
    induction arguments generalizing prev with
    | nil => exact Skips.nil
    | cons argument arguments ih =>
      cases arguments with
      | nil => exact skips_argument rfl (Or.inr rfl) argument prev (bounded_cons (by decide) rest)
      | cons next arguments =>
        rw [argumentsText_cons_cons]
        have hargument : Skips TOOL_ARGS_END_INDICATOR {} {} prev argument.text
            (44 :: 32 :: argumentsText (next :: arguments) ++ 41 :: rest) :=
          skips_argument rfl (Or.inr rfl) argument prev (bounded_cons (by decide) _)
        have hgap : Skips TOOL_ARGS_END_INDICATOR {} {} (lastByte prev argument.text) [44, 32]
            (argumentsText (next :: arguments) ++ 41 :: rest) :=
          Skips.ordinary (rfl : TOOL_ARGS_END_INDICATOR.head? = some 41) (forall_of_all (by decide)) (Or.inr (forall_of_all (by decide)))
        exact hargument.append (hgap.append (ih _))
  rw [Skips] at hskips
  have hhere : (SpecialChars.outside {} && TOOL_ARGS_END_INDICATOR.isPrefixOf (41 :: rest)) = true := rfl
  rw [hskips, scan, if_pos hhere]
  show some (0 + (argumentsText arguments).length) = _
  rw [Nat.zero_add]

end Arguments

section Calls

variable {rj : RapidJson} {number : Str → Option Str}

/-- The arguments object as a value. -/
def argumentsValue (rj : RapidJson) (arguments : List Argument) : Json :=
  .obj (arguments.map fun argument => (cStr argument.name, argumentValue rj argument.value))

theorem argumentsValue_events (arguments : List Argument) :
    Json.Event.startObject :: (arguments.flatMap fun argument => .key (cStr argument.name) :: writeArgumentToWriter rj argument.value) ++
      [.endObject] = (argumentsValue rj arguments).events := by
  have hmembers : arguments.flatMap (fun argument => Json.Event.key (cStr argument.name) :: writeArgumentToWriter rj argument.value) =
      Json.memberEvents (arguments.map fun argument => (cStr argument.name, argumentValue rj argument.value)) := by
    induction arguments with
    | nil => rfl
    | cons argument arguments ih =>
      rw [List.flatMap_cons, List.map_cons, Json.memberEvents, ih, writeArgumentToWriter_eq]
      rfl
  rw [hmembers]
  rfl

theorem argumentsValue_readable (hrj : rj.Conforms number) (arguments : List Argument) : Json.Readable (argumentsValue rj arguments) := by
  show ∀ token ∈ Json.memberTokens (arguments.map _), _
  induction arguments with
  | nil => exact fun _ ht => absurd ht List.not_mem_nil
  | cons argument arguments ih =>
    intro token ht
    rcases List.mem_append.mp ht with ht | ht
    · exact argumentValue_readable hrj argument.value token ht
    · exact ih token ht

/-- The arguments object is read back as the arguments. -/
theorem readText_writeArguments (hrj : rj.Conforms number) (arguments : List Argument) :
    Json.readText (writeArguments rj arguments) = some (argumentsValue rj arguments) := by
  have hreadable := argumentsValue_readable hrj arguments
  rw [writeArguments, argumentsValue_events, hrj.write, Json.writeEvents_events,
    RapidJson.cStr_of_noNul (Json.zero_notMem_text _ hreadable), Json.readText_text hreadable]

/-- The arguments that have been received, with the parenthesis behind them. -/
def Received (p : Lfm2ToolParser) (arguments : List NamedLiteral) (rest : Str) : Prop :=
  p.streamingContent.drop p.streamingPosition = argumentsText arguments ++ 41 :: rest

theorem Received.parsed {p : Lfm2ToolParser} {arguments : List NamedLiteral} {rest : Str} (h : Received p arguments rest) :
    (parseInToolCallParametersState rj p).2.toolCall.arguments = writeArguments rj (arguments.map NamedLiteral.parsed) := by
  have hfind : findInStringRespectingSpecialChars p.streamingContent TOOL_ARGS_END_INDICATOR p.streamingPosition =
      some (p.streamingPosition + (argumentsText arguments).length) := by
    rw [findInStringRespectingSpecialChars, h, scan_parenthesis]
    rfl
  have hpart : substr p.streamingContent p.streamingPosition (p.streamingPosition + (argumentsText arguments).length - p.streamingPosition) =
      argumentsText arguments := by
    rw [substr, h, Nat.add_sub_cancel_left, List.take_left]
  rw [parseInToolCallParametersState, hfind]
  dsimp only
  rw [hpart, parseArguments_text]

/-- The JSON that is written has as many members as there are arguments, and the one at this place is the argument with its value. -/
def ArgumentKept (rj : RapidJson) (p : Lfm2ToolParser) (arguments : List NamedLiteral) (i : Nat) (argument : NamedLiteral) : Prop :=
  ∃ members, Json.readText (parseInToolCallParametersState rj p).2.toolCall.arguments = some (.obj members) ∧
    members.length = arguments.length ∧ members[i]? = some (argument.name, argument.value.json)

theorem cStr_of_word {name : Str} (h : ∀ c ∈ name, isWordChar c = true) : cStr name = name := by
  refine RapidJson.cStr_of_noNul fun hmem => ?_
  exact absurd (h 0 hmem) (by decide)

theorem argumentKept_iff_value (hrj : rj.Conforms number) {p : Lfm2ToolParser} {arguments : List NamedLiteral} {rest : Str}
    (h : Received p arguments rest) {i : Nat} {argument : NamedLiteral} (hi : arguments[i]? = some argument) :
    ArgumentKept rj p arguments i argument ↔ argumentValue rj argument.value.text = argument.value.json := by
  have hread := readText_writeArguments hrj (arguments.map NamedLiteral.parsed)
  have hmember : ((arguments.map NamedLiteral.parsed).map fun argument => (cStr argument.name, argumentValue rj argument.value))[i]? =
      some (argument.name, argumentValue rj argument.value.text) := by
    rw [List.getElem?_map, List.getElem?_map, hi]
    show some (cStr argument.name, argumentValue rj argument.value.text) = _
    rw [cStr_of_word argument.word]
  rw [ArgumentKept, h.parsed, hread]
  constructor
  · rintro ⟨members, hobject, -, hkept⟩
    obtain rfl := Json.obj.inj (Option.some.inj hobject)
    rw [hmember] at hkept
    exact (Prod.mk.inj (Option.some.inj hkept)).2
  · intro hvalue
    refine ⟨_, rfl, by rw [List.length_map, List.length_map], ?_⟩
    rw [hmember, hvalue]

end Calls

section Fidelity

/-- An argument is decoded to its value exactly when its literal is faithful. -/
theorem argument_kept_iff (rj : RapidJson) (number : Str → Option Str) (hrj : rj.Conforms number) (p : Lfm2ToolParser)
    (arguments : List NamedLiteral) (rest : Str) (h : Received p arguments rest) (i : Nat) (argument : NamedLiteral)
    (hi : arguments[i]? = some argument) : ArgumentKept rj p arguments i argument ↔ argument.value.Faithful :=
  (argumentKept_iff_value hrj h hi).trans (argumentValue_iff hrj argument.value)

def letterText : PlainText := ⟨bytes "a", forall_of_all (by decide)⟩

/-- `x=[1, 'a'], y={'a': 2}` -/
def twoArguments : List NamedLiteral :=
  [⟨bytes "x", forall_of_all (by decide), .list [.int 1, .str letterText]⟩, ⟨bytes "y", forall_of_all (by decide), .dict [(letterText, .int 2)]⟩]

/-- A parser at the first of these arguments. -/
def receiving (arguments : List NamedLiteral) : Lfm2ToolParser :=
  { streamingContent := argumentsText arguments ++ [41], currentState := .toolCallParameters }

theorem argument_kept_two : ArgumentKept RapidJson.bounded (receiving twoArguments) twoArguments 0
    ⟨bytes "x", forall_of_all (by decide), .list [.int 1, .str letterText]⟩ :=
  (argument_kept_iff _ _ RapidJson.bounded_conforms (receiving twoArguments) twoArguments [] rfl 0 _ rfl).mpr
    ⟨by decide, by decide, by decide⟩

/-- `x=None` -/
def noneArgument : NamedLiteral := ⟨bytes "x", forall_of_all (by decide), .none⟩

/-- `None` does not stay a null. -/
theorem argument_not_kept : ¬ ∀ (rj : RapidJson) (number : Str → Option Str), rj.Conforms number →
    ∀ (p : Lfm2ToolParser) (arguments : List NamedLiteral) (rest : Str), Received p arguments rest →
      ∀ (i : Nat) (argument : NamedLiteral), arguments[i]? = some argument → ArgumentKept rj p arguments i argument := by
  intro hall
  have hreceived : Received (receiving [noneArgument]) [noneArgument] [] := rfl
  have hkept := hall _ _ RapidJson.bounded_conforms _ _ _ hreceived 0 noneArgument rfl
  exact argumentValue_none RapidJson.bounded_conforms ((argumentKept_iff_value RapidJson.bounded_conforms hreceived rfl).mp hkept)

end Fidelity

end ModelServer.Lfm2ToolParser
