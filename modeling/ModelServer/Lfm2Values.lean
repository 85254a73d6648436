import ModelServer.Lfm2Quotes
import ModelServer.RapidJsonNumbers

namespace ModelServer.Lfm2ToolParser

section Passes

theorem exceedsInt64_integerText (n : Int) : exceedsInt64 (Json.integerText n) = true ↔ 2 ^ 63 ≤ n := by
  cases n with
  | ofNat n =>
    have hdigits : (Json.decimals n).all isdigit = true := List.all_eq_true.mpr (Json.isDigit_of_mem_decimals n)
    have hvalue : (Json.decimals n).foldl (fun n c => 10 * n + (c.toNat - 48)) 0 = n := by
      have hsame : (fun (n : Nat) (c : Byte) => 10 * n + (c.toNat - 48)) = fun n c => n * 10 + (c.toNat - 48) := by
        funext n c
        rw [Nat.mul_comm]
      rw [hsame]
      exact Json.digitsValue_decimals n
    rw [exceedsInt64, Json.integerText, hdigits, hvalue, Bool.true_and, decide_eq_true_iff]
    exact Int.ofNat_le.symm
  | negSucc n =>
    have hsign : ((45 :: Json.decimals (n + 1)).all isdigit) = false := rfl
    rw [exceedsInt64, Json.integerText, hsign]
    constructor
    · intro h
      cases h
    · intro h
      have hneg := Int.negSucc_lt_zero n
      omega

theorem cStr_of_plain (s : PlainText) : cStr s.text = s.text := by
  refine RapidJson.cStr_of_noNul fun hmem => ?_
  exact absurd (s.plain 0 hmem) (by decide)

variable {rj : RapidJson} {number : Str → Option Str}

mutual

/-- Integers of 64 bits come back as they are. -/
theorem respelled_of_int64 (hrj : rj.Conforms number) : ∀ v : Literal, v.constantFree = true → (∀ n ∈ v.integers, InInt64 n) →
    Json.respelled number v.json = some v.json ∧ writtenArgument v.json = v.json
  | .none, hfree, _ => by cases hfree
  | .bool _, hfree, _ => by cases hfree
  | .int n, _, hint => by
    obtain ⟨hlow, hhigh⟩ := hint n (List.mem_singleton.mpr rfl)
    have hexceeds : ¬exceedsInt64 (Json.integerText n) = true := fun h => by
      have hge := (exceedsInt64_integerText n).mp h
      omega
    rw [Literal.json, Json.respelled, hrj.integer n hlow (by omega), writtenArgument, if_neg hexceeds]
    exact ⟨rfl, rfl⟩
  | .str s, _, _ => by
    rw [Literal.json, writtenArgument, cStr_of_plain]
    exact ⟨rfl, rfl⟩
  | .list items, hfree, hint => by
    obtain ⟨hrespelled, hwritten⟩ := respelledItems_of_int64 hrj items hfree hint
    rw [Literal.json, Json.respelled, hrespelled, writtenArgument, hwritten]
    exact ⟨rfl, rfl⟩
  | .dict members, hfree, hint => by
    obtain ⟨hrespelled, hwritten⟩ := respelledMembers_of_int64 hrj members hfree hint
    rw [Literal.json, Json.respelled, hrespelled, writtenArgument, hwritten]
    exact ⟨rfl, rfl⟩

theorem respelledItems_of_int64 (hrj : rj.Conforms number) : ∀ items : List Literal, constantFreeItems items = true →
    (∀ n ∈ integersOfItems items, InInt64 n) →
    Json.respelledItems number (jsonItems items) = some (jsonItems items) ∧ writtenItems (jsonItems items) = jsonItems items
  | [], _, _ => ⟨rfl, rfl⟩
  | v :: vs, hfree, hint => by
    have hboth := Bool.and_eq_true_iff.mp hfree
    obtain ⟨hvalue, hvalue'⟩ := respelled_of_int64 hrj v hboth.1 fun n hn => hint n (List.mem_append_left _ hn)
    obtain ⟨hlater, hlater'⟩ := respelledItems_of_int64 hrj vs hboth.2 fun n hn => hint n (List.mem_append_right _ hn)
    rw [jsonItems, Json.respelledItems, hvalue, hlater, writtenItems, hvalue', hlater']
    exact ⟨rfl, rfl⟩

theorem respelledMembers_of_int64 (hrj : rj.Conforms number) : ∀ members : List (PlainText × Literal), constantFreeMembers members = true →
    (∀ n ∈ integersOfMembers members, InInt64 n) →
    Json.respelledMembers number (jsonMembers members) = some (jsonMembers members) ∧
      writtenMembers (jsonMembers members) = jsonMembers members
  | [], _, _ => ⟨rfl, rfl⟩
  | (k, v) :: ms, hfree, hint => by
    have hboth := Bool.and_eq_true_iff.mp hfree
    obtain ⟨hvalue, hvalue'⟩ := respelled_of_int64 hrj v hboth.1 fun n hn => hint n (List.mem_append_left _ hn)
    obtain ⟨hlater, hlater'⟩ := respelledMembers_of_int64 hrj ms hboth.2 fun n hn => hint n (List.mem_append_right _ hn)
    rw [jsonMembers, Json.respelledMembers, hvalue, hlater, writtenMembers, hvalue', hlater', cStr_of_plain]
    exact ⟨rfl, rfl⟩

end

mutual

/-- What comes back as it was, after both times it is read, has integers of 64 bits only. -/
theorem int64_of_written (hrj : rj.Conforms number) : ∀ (v : Literal) {first second : Json}, Json.respelled number v.json = some first →
    Json.respelled number first = some second → writtenArgument second = v.json → ∀ n ∈ v.integers, InInt64 n
  | .none, _, _, _, _, _ => fun _ hn => absurd hn List.not_mem_nil
  | .bool _, _, _, _, _, _ => fun _ hn => absurd hn List.not_mem_nil
  | .str _, _, _, _, _, _ => fun _ hn => absurd hn List.not_mem_nil
  | .int n, _, _, hfirst, hsecond, hwritten => by
    intro m hm
    obtain rfl := List.mem_singleton.mp hm
    obtain ⟨token, htoken, rfl⟩ := Option.map_eq_some_iff.mp hfirst
    obtain ⟨token', htoken', rfl⟩ := Option.map_eq_some_iff.mp hsecond
    rw [writtenArgument] at hwritten
    split at hwritten
    next => cases hwritten
    next hexceeds =>
      obtain rfl : token' = Json.integerText m := Json.num.inj hwritten
      have hsmall : ¬2 ^ 63 ≤ m := fun h => hexceeds ((exceedsInt64_integerText m).mpr h)
      refine ⟨?_, by omega⟩
      by_contra hlow
      have hreal := hrj.exceeding m token (Or.inl (by omega)) htoken
      exact Json.not_isReal_integerText m (hrj.real token _ hreal htoken')
  | .list items, _, _, hfirst, hsecond, hwritten => by
    obtain ⟨firsts, hfirsts, rfl⟩ := Option.map_eq_some_iff.mp hfirst
    obtain ⟨seconds, hseconds, rfl⟩ := Option.map_eq_some_iff.mp hsecond
    exact int64_of_writtenItems hrj items hfirsts hseconds (Json.arr.inj hwritten)
  | .dict members, _, _, hfirst, hsecond, hwritten => by
    obtain ⟨firsts, hfirsts, rfl⟩ := Option.map_eq_some_iff.mp hfirst
    obtain ⟨seconds, hseconds, rfl⟩ := Option.map_eq_some_iff.mp hsecond
    exact int64_of_writtenMembers hrj members hfirsts hseconds (Json.obj.inj hwritten)

theorem int64_of_writtenItems (hrj : rj.Conforms number) : ∀ (items : List Literal) {firsts seconds : List Json},
    Json.respelledItems number (jsonItems items) = some firsts → Json.respelledItems number firsts = some seconds →
    writtenItems seconds = jsonItems items → ∀ n ∈ integersOfItems items, InInt64 n
  | [], _, _, _, _, _ => fun _ hn => absurd hn List.not_mem_nil
  | v :: vs, _, _, hfirst, hsecond, hwritten => by
    obtain ⟨first, hvalue₁, h⟩ := Option.bind_eq_some_iff.mp hfirst
    obtain ⟨firsts, hfirsts, rfl⟩ := Option.map_eq_some_iff.mp h
    obtain ⟨second, hvalue₂, h⟩ := Option.bind_eq_some_iff.mp hsecond
    obtain ⟨seconds, hseconds, rfl⟩ := Option.map_eq_some_iff.mp h
    obtain ⟨hvalue, hlater⟩ := List.cons.inj hwritten
    intro n hn
    rcases List.mem_append.mp hn with hn | hn
    · exact int64_of_written hrj v hvalue₁ hvalue₂ hvalue n hn
    · exact int64_of_writtenItems hrj vs hfirsts hseconds hlater n hn

theorem int64_of_writtenMembers (hrj : rj.Conforms number) : ∀ (members : List (PlainText × Literal)) {firsts seconds : List (Str × Json)},
    Json.respelledMembers number (jsonMembers members) = some firsts → Json.respelledMembers number firsts = some seconds →
    writtenMembers seconds = jsonMembers members → ∀ n ∈ integersOfMembers members, InInt64 n
  | [], _, _, _, _, _ => fun _ hn => absurd hn List.not_mem_nil
  | (k, v) :: ms, _, _, hfirst, hsecond, hwritten => by
    obtain ⟨first, hvalue₁, h⟩ := Option.bind_eq_some_iff.mp hfirst
    obtain ⟨firsts, hfirsts, rfl⟩ := Option.map_eq_some_iff.mp h
    obtain ⟨second, hvalue₂, h⟩ := Option.bind_eq_some_iff.mp hsecond
    obtain ⟨seconds, hseconds, rfl⟩ := Option.map_eq_some_iff.mp h
    obtain ⟨hmember, hlater⟩ := List.cons.inj hwritten
    intro n hn
    rcases List.mem_append.mp hn with hn | hn
    · exact int64_of_written hrj v hvalue₁ hvalue₂ (Prod.mk.inj hmember).2 n hn
    · exact int64_of_writtenMembers hrj ms hfirsts hseconds hlater n hn

end

end Passes

section Arguments

variable {rj : RapidJson} {number : Str → Option Str}

/-- What is written of an argument. -/
def argumentValue (rj : RapidJson) (arg : Str) : Json :=
  writtenArgument ((rj.document (cStr (normalizeArgStr rj arg))).getD .null)

theorem writeArgumentToWriter_eq (arg : Str) : writeArgumentToWriter rj arg = (argumentValue rj arg).events := argumentEvents_eq _

theorem zero_notMem_cStr (text : Str) : 0 ∉ cStr text := by
  intro hmem
  have h := List.mem_takeWhile_imp hmem
  cases h

theorem document_readable (hrj : rj.Conforms number) {text : Str} {value : Json} (h : rj.document (cStr text) = some value) :
    Json.Readable value := by
  rw [hrj.document _ (zero_notMem_cStr text)] at h
  obtain ⟨read, -, h⟩ := Option.bind_eq_some_iff.mp h
  exact Json.respelled_readable hrj.spelled read h

theorem argumentValue_readable (hrj : rj.Conforms number) (arg : Str) : Json.Readable (argumentValue rj arg) := by
  intro token ht
  have hmem := tokens_writtenArgument _ token ht
  cases hdocument : rj.document (cStr (normalizeArgStr rj arg)) with
  | none =>
    rw [hdocument] at hmem
    exact absurd hmem List.not_mem_nil
  | some value =>
    rw [hdocument] at hmem
    exact document_readable hrj hdocument token hmem

/-- A value that is written is read as a document with its numbers spelled anew. -/
theorem document_write (hrj : rj.Conforms number) {value : Json} (h : Json.Readable value) :
    rj.document (cStr (cStr (rj.write value.events))) = Json.respelled number value := by
  have hzero := Json.zero_notMem_text value h
  rw [hrj.write, Json.writeEvents_events, RapidJson.cStr_of_noNul hzero, RapidJson.cStr_of_noNul hzero, hrj.document _ hzero, Json.readText_text h]
  rfl

/-- The quotes of an argument as they are once the text is normalized; `none` is an argument that is no JSON text. -/
def normalDocument (rj : RapidJson) (arg : Str) : Option Json := rj.document (cStr (normalizeQuotes (trim arg)))

def isKeyword (lower : Str) : Prop := lower = bytes "true" ∨ lower = bytes "false" ∨ lower = bytes "null"

/-- The string that an argument is otherwise. -/
def unquoted (arg : Str) : Str :=
  let (first, last) := ends (trim arg)
  if first == char '"' && last == char '"' then substr (normalizeQuotes (trim arg)) 1 ((normalizeQuotes (trim arg)).length - 2)
  else normalizeQuotes (trim arg)

theorem normalizeArgStr_eq {arg : Str} (hne : arg ≠ []) (hkeyword : ¬isKeyword ((trim arg).map tolower)) :
    normalizeArgStr rj arg = cStr (rj.write ((normalDocument rj arg).getD (.str (unquoted arg))).events) := by
  have hempty : ¬arg.isEmpty = true := by simpa using hne
  unfold isKeyword at hkeyword
  rw [normalizeArgStr, if_neg hempty]
  dsimp only
  rw [if_neg hkeyword, normalDocument]
  cases rj.document (cStr (normalizeQuotes (trim arg))) with
  | none => rfl
  | some value => rfl

theorem argumentValue_of_document (hrj : rj.Conforms number) {arg : Str} {value : Json} (hne : arg ≠ [])
    (hkeyword : ¬isKeyword ((trim arg).map tolower)) (h : normalDocument rj arg = some value) :
    argumentValue rj arg = writtenArgument ((Json.respelled number value).getD .null) := by
  rw [argumentValue, normalizeArgStr_eq hne hkeyword, h, Option.getD_some, document_write hrj (document_readable hrj h)]

theorem argumentValue_of_none (hrj : rj.Conforms number) {arg : Str} (hne : arg ≠ [])
    (hkeyword : ¬isKeyword ((trim arg).map tolower)) (h : normalDocument rj arg = none) :
    ∃ text, argumentValue rj arg = .str text := by
  have hreadable : Json.Readable (.str (unquoted arg)) := fun _ ht => absurd ht List.not_mem_nil
  refine ⟨cStr (unquoted arg), ?_⟩
  rw [argumentValue, normalizeArgStr_eq hne hkeyword, h, Option.getD_none, document_write hrj hreadable]
  rfl

end Arguments

section Normalized

theorem trim_eq_self {text : Str} (hfirst : ∀ c ∈ text.head?, isspace c = false) (hlast : ∀ c ∈ text.getLast?, isspace c = false) :
    trim text = text := by
  have hkeep (text : Str) (h : ∀ c ∈ text.head?, isspace c = false) : text.dropWhile isspace = text := by
    cases text with
    | nil => rfl
    | cons c text => exact List.dropWhile_cons_of_neg (by simp [h c rfl])
  rw [trim, ltrim, hkeep text hfirst, rtrim, hkeep text.reverse (by rwa [List.head?_reverse]), List.reverse_reverse]

theorem ends_wrapped (c d : Byte) (text : Str) : ends (c :: (text ++ [d])) = (c, d) := by
  rw [ends, ← List.cons_append, List.getLast?_append]
  rfl

theorem trim_wrapped {c d : Byte} (hc : isspace c = false) (hd : isspace d = false) (text : Str) :
    trim (c :: (text ++ [d])) = c :: (text ++ [d]) := by
  refine trim_eq_self ?_ ?_
  · rintro x ⟨⟩
    exact hc
  · intro x hx
    rw [← List.cons_append, List.getLast?_append] at hx
    cases hx
    exact hd

theorem replaceInnerQuotes_wrapped (followers : List Byte) (c d : Byte) (text : Str) :
    replaceInnerQuotes followers (c :: (text ++ [d])) = c :: (replaceQuotes followers false text ++ [d]) := by
  rw [replaceInnerQuotes, List.dropLast_concat, List.getLast?_concat]
  rfl

theorem normalizeQuotes_list (text : Str) :
    normalizeQuotes (91 :: (text ++ [93])) = 91 :: (replaceQuotes [44] false text ++ [93]) := by
  have hrewritten := replaceInnerQuotes_wrapped [44] 91 93 text
  rw [normalizeQuotes, ends_wrapped]
  exact hrewritten

theorem normalizeQuotes_dict (text : Str) :
    normalizeQuotes (123 :: (text ++ [125])) = 123 :: (replaceQuotes [44, 58] false text ++ [125]) := by
  have hrewritten := replaceInnerQuotes_wrapped [44, 58] 123 125 text
  rw [normalizeQuotes, ends_wrapped]
  exact hrewritten

theorem normalizeQuotes_str (text : Str) : normalizeQuotes (39 :: (text ++ [39])) = 34 :: (text ++ [34]) := by
  have hset : ((39 :: (text ++ [39])).set 0 34).set ((39 :: (text ++ [39])).length - 1) 34 = 34 :: (text ++ [34]) := by
    rw [List.set_cons_zero, List.length_cons, Nat.add_sub_cancel, List.length_append, List.length_singleton, List.set_cons_succ,
      List.set_append_right _ _ (Nat.le_refl _), Nat.sub_self]
    rfl
  rw [normalizeQuotes, ends_wrapped]
  exact hset

/-- Only a bracket, a brace or a quote at the start has anything rewritten. -/
theorem normalizeQuotes_other {text : Str} (h : (ends text).1 ≠ 123 ∧ (ends text).1 ≠ 91 ∧ (ends text).1 ≠ 39) :
    normalizeQuotes text = text := by
  have hbrace : ((ends text).1 == char '\x7b') = false := beq_false_of_ne h.1
  have hbracket : ((ends text).1 == char '[') = false := beq_false_of_ne h.2.1
  have hquote : ((ends text).1 == char '\'') = false := beq_false_of_ne h.2.2
  simp [normalizeQuotes, hbrace, hbracket, hquote]

end Normalized

section Faithful

variable {rj : RapidJson} {number : Str → Option Str}

theorem mem_replaceQuotes {followers : List Byte} {c : Byte} (quoteDepth : Bool) {text : Str}
    (h : c ∈ replaceQuotes followers quoteDepth text) : c = 34 ∨ c ∈ text := by
  induction text generalizing quoteDepth with
  | nil => cases h
  | cons d text ih =>
    have hlater (quoteDepth : Bool) (e : Byte) (he : e = d ∨ e = 34) (h : c ∈ e :: replaceQuotes followers quoteDepth text) :
        c = 34 ∨ c ∈ d :: text := by
      rcases List.mem_cons.mp h with rfl | h
      · rcases he with rfl | rfl
        · exact Or.inr List.mem_cons_self
        · exact Or.inl rfl
      · exact (ih quoteDepth h).imp_right (List.mem_cons_of_mem d)
    rw [replaceQuotes] at h
    split at h
    · exact hlater _ _ (Or.inl rfl) h
    split at h
    · exact hlater _ _ (Or.inr rfl) h
    split at h
    · exact hlater _ _ (Or.inr rfl) h
    · exact hlater _ _ (Or.inl rfl) h

mutual

theorem quote_notMem_json : ∀ v : Literal, 39 ∉ Json.stringBytes v.json
  | .none => List.not_mem_nil
  | .bool _ => List.not_mem_nil
  | .int _ => List.not_mem_nil
  | .str s => fun hmem => quote_ne_of_isPlain s.plain 39 hmem rfl
  | .list items => quote_notMem_jsonItems items
  | .dict members => quote_notMem_jsonMembers members

theorem quote_notMem_jsonItems : ∀ items : List Literal, 39 ∉ Json.itemStringBytes (jsonItems items)
  | [] => List.not_mem_nil
  | v :: vs => by
    rw [jsonItems, Json.itemStringBytes, List.mem_append, not_or]
    exact ⟨quote_notMem_json v, quote_notMem_jsonItems vs⟩

theorem quote_notMem_jsonMembers : ∀ members : List (PlainText × Literal), 39 ∉ Json.memberStringBytes (jsonMembers members)
  | [] => List.not_mem_nil
  | (k, v) :: ms => by
    rw [jsonMembers, Json.memberStringBytes, List.mem_append, List.mem_append, not_or, not_or]
    exact ⟨fun hmem => quote_ne_of_isPlain k.plain 39 hmem rfl, quote_notMem_json v, quote_notMem_jsonMembers ms⟩

end

/-- What an argument is worth when it is the text of JSON for its value. -/
theorem argumentValue_iff_of_read (hrj : rj.Conforms number) (v : Literal) (hne : v.text ≠ [])
    (hkeyword : ¬isKeyword ((trim v.text).map tolower))
    (hnormal : normalDocument rj v.text = v.read.bind (Json.respelled number))
    (hstr : normalDocument rj v.text = none → ∀ text, v.json ≠ .str text) :
    argumentValue rj v.text = v.json ↔ v.constantFree = true ∧ ∀ n ∈ v.integers, InInt64 n := by
  constructor
  · intro heq
    cases hfirst : normalDocument rj v.text with
    | none =>
      obtain ⟨text, htext⟩ := argumentValue_of_none hrj hne hkeyword hfirst
      exact absurd (heq.symm.trans htext) (hstr hfirst text)
    | some first =>
      rw [hfirst] at hnormal
      rw [argumentValue_of_document hrj hne hkeyword hfirst] at heq
      obtain ⟨read, hread, hrespelled⟩ := Option.bind_eq_some_iff.mp hnormal.symm
      rw [Literal.read] at hread
      split at hread
      next hfree =>
        cases hread
        refine ⟨hfree, ?_⟩
        cases hsecond : Json.respelled number first with
        | some second =>
          rw [hsecond] at heq
          exact int64_of_written hrj v hrespelled hsecond heq
        | none =>
          -- a null is written as an empty string, which can only stand for a string
          rw [hsecond] at heq
          cases v with
          | str s => exact fun _ hn => absurd hn List.not_mem_nil
          | _ => cases heq
      next => cases hread
  · rintro ⟨hfree, hint⟩
    obtain ⟨hrespelled, hwritten⟩ := respelled_of_int64 hrj v hfree hint
    have hread : v.read = some v.json := if_pos hfree
    rw [hread, Option.bind_some, hrespelled] at hnormal
    rw [argumentValue_of_document hrj hne hkeyword hnormal, hrespelled]
    exact hwritten

/-- With a single quote left in its text, an argument is never its value. -/
theorem argumentValue_ne_of_quote (hrj : rj.Conforms number) (v : Literal) (hne : v.text ≠ [])
    (hkeyword : ¬isKeyword ((trim v.text).map tolower)) {text : Str} (hnormal : normalDocument rj v.text = (Json.readText text).bind (Json.respelled number))
    (hquote : 39 ∈ text) (hbackslash : 92 ∉ text) (hzero : 0 ∉ text) (hstr : ∀ text, v.json ≠ .str text) :
    argumentValue rj v.text ≠ v.json := by
  intro heq
  cases hfirst : normalDocument rj v.text with
  | none =>
    obtain ⟨text, htext⟩ := argumentValue_of_none hrj hne hkeyword hfirst
    exact hstr text (heq.symm.trans htext)
  | some first =>
    rw [hfirst] at hnormal
    rw [argumentValue_of_document hrj hne hkeyword hfirst] at heq
    obtain ⟨read, hread, hrespelled⟩ := Option.bind_eq_some_iff.mp hnormal.symm
    cases hsecond : Json.respelled number first with
    | none =>
      rw [hsecond] at heq
      exact hstr [] heq.symm
    | some second =>
      rw [hsecond] at heq
      have hbytes : Json.stringBytes second = Json.stringBytes read :=
        (Json.stringBytes_respelled first hsecond).trans (Json.stringBytes_respelled read hrespelled)
      have hnul : 0 ∉ Json.stringBytes second := fun hmem => hzero (Json.stringBytes_subset hread hbackslash (hbytes ▸ hmem))
      have hwritten := stringBytes_writtenArgument second hnul
      rw [show writtenArgument second = v.json from heq, hbytes] at hwritten
      exact quote_notMem_json v (hwritten ▸ Json.quote_of_readText hread hquote)

theorem foreign_zero {quote : Byte} (h : 0 ≠ quote) : Foreign 0 quote := ⟨Json.zero_notNumeric, h, rfl, by decide⟩

theorem foreign_backslash {quote : Byte} (h : 92 ≠ quote) : Foreign 92 quote := ⟨⟨rfl, by decide⟩, h, rfl, by decide⟩

theorem normalDocument_eq (hrj : rj.Conforms number) {arg text : Str} (htext : normalizeQuotes (trim arg) = text) (hzero : 0 ∉ text) :
    normalDocument rj arg = (Json.readText text).bind (Json.respelled number) := by
  rw [normalDocument, htext, RapidJson.cStr_of_noNul hzero, hrj.document text hzero]

theorem normalDocument_of_closed (hrj : rj.Conforms number) {v : Literal} (h : normalizeQuotes (trim v.text) = v.textWith 34) :
    normalDocument rj v.text = v.read.bind (Json.respelled number) := by
  rw [normalDocument_eq hrj h ((foreign_zero (by decide)).notMem_textWith v), (readsAs_literal v).readText]

/-- A list or a dict. -/
theorem argumentValue_container (hrj : rj.Conforms number) (v : Literal) {followers : List Byte} {opening closing : Byte} {inner rewritten : Str}
    {closes : Bool} (htext : v.textWith 39 = opening :: (inner ++ [closing])) (htext' : v.textWith 34 = opening :: (rewritten ++ [closing]))
    (hrewrites : Rewrites followers closes inner rewritten [])
    (hnormal : normalizeQuotes (opening :: (inner ++ [closing])) = opening :: (replaceQuotes followers false inner ++ [closing]))
    (hopening : opening = 91 ∨ opening = 123) (hclosing : isspace closing = false) (hstr : ∀ text, v.json ≠ .str text) :
    argumentValue rj v.text = v.json ↔ closes = true ∧ v.constantFree = true ∧ ∀ n ∈ v.integers, InInt64 n := by
  have hspace : isspace opening = false := by
    rcases hopening with rfl | rfl
    · rfl
    · rfl
  have htrim : trim v.text = opening :: (inner ++ [closing]) := by
    rw [text_eq_textWith, htext]
    exact trim_wrapped hspace hclosing inner
  have hne : v.text ≠ [] := by
    rw [text_eq_textWith, htext]
    exact List.cons_ne_nil _ _
  have hkeyword : ¬isKeyword ((trim v.text).map tolower) := by
    rw [htrim, List.map_cons]
    rintro (hword | hword | hword)
    all_goals
      have hfirst := (List.cons.inj hword).1
      rcases hopening with rfl | rfl
      · cases hfirst
      · cases hfirst
  have hnormal' : normalizeQuotes (trim v.text) = opening :: (replaceQuotes followers false inner ++ [closing]) := by
    rw [htrim, hnormal]
  cases hcloses : closes with
  | true =>
    have hrewritten : normalizeQuotes (trim v.text) = v.textWith 34 := by
      have hdone := hrewrites.done hcloses
      rw [List.append_nil, replaceQuotes, List.append_nil] at hdone
      rw [hnormal', hdone, htext']
    rw [argumentValue_iff_of_read hrj v hne hkeyword (normalDocument_of_closed hrj hrewritten) fun _ => hstr]
    exact ⟨fun h => ⟨rfl, h⟩, And.right⟩
  | false =>
    have hleft := hrewrites.left hcloses
    rw [List.append_nil] at hleft
    have hforeign {byte : Byte} (h : Foreign byte 39) (hne : byte ≠ 34) :
        byte ∉ opening :: (replaceQuotes followers false inner ++ [closing]) := by
      have hnot := h.notMem_textWith v
      rw [htext] at hnot
      intro hmem
      rcases List.mem_cons.mp hmem with rfl | hmem
      · exact hnot List.mem_cons_self
      rcases List.mem_append.mp hmem with hmem | hmem
      · rcases mem_replaceQuotes false hmem with rfl | hmem
        · exact hne rfl
        · exact hnot (List.mem_cons_of_mem _ (List.mem_append_left _ hmem))
      · exact hnot (List.mem_cons_of_mem _ (List.mem_append_right _ hmem))
    have hzero := hforeign (foreign_zero (by decide)) (by decide)
    have hbackslash := hforeign (foreign_backslash (by decide)) (by decide)
    have hquote : 39 ∈ opening :: (replaceQuotes followers false inner ++ [closing]) :=
      List.mem_cons_of_mem _ (List.mem_append_left _ hleft)
    have hdiffers := argumentValue_ne_of_quote hrj v hne hkeyword (normalDocument_eq hrj hnormal' hzero) hquote hbackslash hzero hstr
    exact ⟨fun h => absurd h hdiffers, fun h => by cases h.1⟩

/-- A minus sign or a digit at both ends. -/
def IsNumberByte (c : Byte) : Prop := isspace c = false ∧ c ≠ 123 ∧ c ≠ 91 ∧ c ≠ 39 ∧ tolower c ≠ 116 ∧ tolower c ≠ 102 ∧ tolower c ≠ 110

instance (c : Byte) : Decidable (IsNumberByte c) := inferInstanceAs (Decidable (_ ∧ _))

theorem isNumberByte_digit : ∀ d < 10, IsNumberByte (48 + d.toUInt8) := by decide

theorem isNumberByte_of_mem_decimals (n : Nat) : ∀ c ∈ Json.decimals n, IsNumberByte c := by
  induction n using Nat.strongRecOn with
  | ind n ih =>
    intro c hc
    rcases Nat.lt_or_ge n 10 with hlt | hge
    · rw [Json.decimals_of_lt hlt] at hc
      rw [List.mem_singleton.mp hc]
      exact isNumberByte_digit n hlt
    · rw [Json.decimals_of_le hge] at hc
      rcases List.mem_append.mp hc with hc | hc
      · exact ih (n / 10) (by omega) c hc
      · rw [List.mem_singleton.mp hc]
        exact isNumberByte_digit _ (Nat.mod_lt n (by decide))

theorem isNumberByte_of_mem_integerText {n : Int} {c : Byte} (hc : c ∈ Json.integerText n) : IsNumberByte c := by
  cases n with
  | ofNat n => exact isNumberByte_of_mem_decimals n c hc
  | negSucc n =>
    rcases List.mem_cons.mp hc with rfl | hc
    · decide
    · exact isNumberByte_of_mem_decimals (n + 1) c hc

theorem integerText_ne_nil (n : Int) : Json.integerText n ≠ [] := by
  intro hnil
  have hread := Json.readNumber_integerText n
  rw [hnil] at hread
  cases hread

theorem argumentValue_int (hrj : rj.Conforms number) (n : Int) :
    argumentValue rj (Literal.int n).text = (Literal.int n).json ↔ InInt64 n := by
  have hne := integerText_ne_nil n
  have htrim : trim (Literal.int n).text = Json.integerText n := by
    rw [text_eq_textWith]
    refine trim_eq_self (fun c hc => ?_) fun c hc => ?_
    · exact (isNumberByte_of_mem_integerText (List.mem_of_mem_head? hc)).1
    · exact (isNumberByte_of_mem_integerText (List.mem_of_mem_getLast? hc)).1
  obtain ⟨c, rest, hcons⟩ := List.exists_cons_of_ne_nil hne
  obtain ⟨-, hbrace, hbracket, hquote, ht, hf, hn⟩ : IsNumberByte c :=
    isNumberByte_of_mem_integerText (n := n) (by rw [hcons]; exact List.mem_cons_self)
  have hnormal : normalizeQuotes (trim (Literal.int n).text) = (Literal.int n).textWith 34 := by
    rw [htrim, Literal.textWith]
    refine normalizeQuotes_other ?_
    rw [hcons]
    exact ⟨hbrace, hbracket, hquote⟩
  have hkeyword : ¬isKeyword ((trim (Literal.int n).text).map tolower) := by
    rw [htrim, hcons, List.map_cons]
    rintro (hword | hword | hword)
    · exact ht (List.cons.inj hword).1
    · exact hf (List.cons.inj hword).1
    · exact hn (List.cons.inj hword).1
  have htext : (Literal.int n).text ≠ [] := by
    rw [text_eq_textWith]
    exact hne
  rw [argumentValue_iff_of_read hrj _ htext hkeyword (normalDocument_of_closed hrj hnormal) fun _ text h => by cases h]
  simp [Literal.constantFree, Literal.integers]

theorem argumentValue_bool (hrj : rj.Conforms number) (b : Bool) : argumentValue rj (Literal.bool b).text = .bool b := by
  have hword : cStr (normalizeArgStr rj (Literal.bool b).text) = if b then bytes "true" else bytes "false" := by
    cases b with
    | true => rfl
    | false => rfl
  have hdocument : rj.document (if b then bytes "true" else bytes "false") = some (.bool b) := by
    cases b with
    | true =>
      rw [hrj.document _ (by decide)]
      rfl
    | false =>
      rw [hrj.document _ (by decide)]
      rfl
  rw [argumentValue, hword, hdocument]
  rfl

theorem argumentValue_none (hrj : rj.Conforms number) : argumentValue rj Literal.none.text ≠ .null := by
  have hnormal : normalizeQuotes (trim Literal.none.text) = Literal.none.textWith 34 := by decide
  have hkeyword : ¬isKeyword ((trim Literal.none.text).map tolower) := by
    rw [isKeyword]
    decide
  intro heq
  have hiff := argumentValue_iff_of_read hrj Literal.none (by decide) hkeyword (normalDocument_of_closed hrj hnormal) fun _ text h => by cases h
  cases (hiff.mp heq).1

theorem argumentValue_str (hrj : rj.Conforms number) (s : PlainText) : argumentValue rj (Literal.str s).text = .str s.text := by
  have htrim : trim (Literal.str s).text = 39 :: (s.text ++ [39]) := trim_wrapped rfl rfl s.text
  have hnormal : normalizeQuotes (trim (Literal.str s).text) = (Literal.str s).textWith 34 := by
    rw [htrim, normalizeQuotes_str]
    rfl
  have hkeyword : ¬isKeyword ((trim (Literal.str s).text).map tolower) := by
    rw [htrim, List.map_cons]
    rintro (hword | hword | hword)
    all_goals cases (List.cons.inj hword).1
  have hdocument := normalDocument_of_closed hrj hnormal
  refine (argumentValue_iff_of_read hrj (.str s) (List.cons_ne_nil _ _) hkeyword hdocument fun hnone => ?_).mpr ?_
  · rw [hdocument] at hnone
    cases hnone
  · exact ⟨rfl, fun _ hn => absurd hn List.not_mem_nil⟩

/-- What is written of an argument is its value exactly when the argument is faithful. -/
theorem argumentValue_iff (hrj : rj.Conforms number) (v : Literal) : argumentValue rj v.text = v.json ↔ v.Faithful := by
  cases v with
  | none => exact ⟨fun h => absurd h (argumentValue_none hrj), fun h => h.2.elim⟩
  | bool b => exact ⟨fun _ => ⟨fun _ hn => absurd hn List.not_mem_nil, trivial⟩, fun _ => argumentValue_bool hrj b⟩
  | int n =>
    rw [argumentValue_int hrj n]
    simp [Literal.Faithful, Literal.integers]
  | str s => exact ⟨fun _ => ⟨fun _ hn => absurd hn List.not_mem_nil, trivial⟩, fun _ => argumentValue_str hrj s⟩
  | list items =>
    have hrewrites : Rewrites [44] _ _ _ _ := rewrites_items items []
    rw [argumentValue_container hrj _ rfl rfl hrewrites (normalizeQuotes_list _) (Or.inl rfl) rfl fun _ h => by cases h]
    exact ⟨fun ⟨hcloses, hfree, hint⟩ => ⟨hint, hcloses, hfree⟩, fun ⟨hint, hcloses, hfree⟩ => ⟨hcloses, hfree, hint⟩⟩
  | dict members =>
    have hrewrites : Rewrites [44, 58] _ _ _ _ := rewrites_members members []
    rw [argumentValue_container hrj _ rfl rfl hrewrites (normalizeQuotes_dict _) (Or.inr rfl) rfl fun _ h => by cases h]
    exact ⟨fun ⟨hcloses, hfree, hint⟩ => ⟨hint, hcloses, hfree⟩, fun ⟨hint, hcloses, hfree⟩ => ⟨hcloses, hfree, hint⟩⟩

end Faithful

end ModelServer.Lfm2ToolParser
