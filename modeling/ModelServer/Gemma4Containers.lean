import ModelServer.Gemma4NativeText

namespace ModelServer.Gemma4ToolParser

open RapidJson

/-- Text between the brackets of a container: native strings, JSON strings, nested
containers and other bytes. -/
inductive Body : Str → Prop
  | nil : Body []
  | native {s rest : Str} : ¬ TOOL_ARGS_STRING_INDICATOR <:+: s → Body rest →
      Body (TOOL_ARGS_STRING_INDICATOR ++ (s ++ (TOOL_ARGS_STRING_INDICATOR ++ rest)))
  | quoted {s rest : Str} : closingQuote false s = some s.length → Body rest →
      Body (quote :: (s ++ rest))
  | nested {opener closer : Byte} {body rest : Str} : closerOf opener = some closer → Body body →
      Body rest → Body (opener :: (body ++ closer :: rest))
  | byte {c : Byte} {rest : Str} : closerOf c = none → isCloser c = false → c ≠ quote →
      ¬ TOOL_ARGS_STRING_INDICATOR <+: c :: rest → ¬ TOOL_CALL_END_TAG <+: c :: rest →
      Body rest → Body (c :: rest)

/-- Bodies, each ended by the next of the closing brackets that are due. -/
inductive Closes : List Byte → Str → Prop
  | nil : Closes [] []
  | cons {k : Byte} {ks : List Byte} {body rest : Str} : Body body → Closes ks rest →
      Closes (k :: ks) (body ++ k :: rest)

section Items

variable {closers : List Byte} {text : Str}

theorem Closes.native {s : Str} (hs : ¬ TOOL_ARGS_STRING_INDICATOR <:+: s) (hne : closers ≠ [])
    (h : Closes closers text) :
    Closes closers (TOOL_ARGS_STRING_INDICATOR ++ (s ++ (TOOL_ARGS_STRING_INDICATOR ++ text))) := by
  cases h with
  | nil => exact absurd rfl hne
  | cons hbody hrest => simpa [List.append_assoc] using Closes.cons (Body.native hs hbody) hrest

theorem Closes.quoted {s : Str} (hs : closingQuote false s = some s.length) (hne : closers ≠ [])
    (h : Closes closers text) : Closes closers (quote :: (s ++ text)) := by
  cases h with
  | nil => exact absurd rfl hne
  | cons hbody hrest => simpa [List.append_assoc] using Closes.cons (Body.quoted hs hbody) hrest

theorem Closes.nested {opener closer : Byte} (ho : closerOf opener = some closer) (hne : closers ≠ [])
    (h : Closes (closer :: closers) text) : Closes closers (opener :: text) := by
  cases h with
  | cons hbody hrest =>
    cases hrest with
    | nil => exact absurd rfl hne
    | cons hbody' hrest' =>
      simpa [List.append_assoc] using Closes.cons (Body.nested ho hbody hbody') hrest'

theorem Closes.byte {c : Byte} {tail : Str} (ho : closerOf c = none) (hc : isCloser c = false)
    (hq : c ≠ quote) (hm : ¬ TOOL_ARGS_STRING_INDICATOR <+: c :: (text ++ tail))
    (he : ¬ TOOL_CALL_END_TAG <+: c :: (text ++ tail)) (hne : closers ≠ [])
    (h : Closes closers text) : Closes closers (c :: text) := by
  cases h with
  | nil => exact absurd rfl hne
  | @cons k ks body rest hbody hrest =>
    have hpre : c :: body <+: c :: (body ++ k :: rest ++ tail) := ⟨k :: rest ++ tail, by simp⟩
    exact Closes.cons (Body.byte ho hc hq (fun h => hm (h.trans hpre)) (fun h => he (h.trans hpre)) hbody)
      hrest

end Items

section Scan

theorem closingQuote_cons_true {c : Byte} {cs : Str} (h : closingQuote false cs = some cs.length) :
    closingQuote true (c :: cs) = some (c :: cs).length := by
  rw [closingQuote, h]
  rfl

theorem closingQuote_cons {c : Byte} {cs : Str} (hq : c ≠ quote)
    (h : closingQuote (decide (c = backslash)) cs = some cs.length) :
    closingQuote false (c :: cs) = some (c :: cs).length := by
  rw [closingQuote]
  by_cases hb : c = backslash
  · simp only [hb, decide_true] at h ⊢
    simp [h]
  · simp only [hb, decide_false] at h
    simp [hb, hq, h]

/-- Once a bracket has not matched, no close is found. -/
theorem scan_malformed (offset skip : Nat) (mode : ScanMode) (closers : List Byte) (text : Str) :
    (scan offset skip mode closers true text).close = none := by
  induction text generalizing offset skip mode closers with
  | nil => cases skip <;> rfl
  | cons c cs ih =>
    unfold scan
    cases skip with
    | succ skip => exact ih _ _ _ _
    | zero =>
      dsimp only
      split
      · rfl
      cases mode with
      | quoted escaped =>
        dsimp only
        split
        · split <;> rfl
        repeat' split
        all_goals exact ih _ _ _ _
      | plain =>
        dsimp only
        split
        · split
          · split
            · rfl
            · unfold unclosedString
              split
              · rfl
              · split <;> rfl
          · split
            · rfl
            · exact ih _ _ _ _
        split
        · exact ih _ _ _ _
        split
        · rfl
        split
        · split
          · rfl
          · exact ih _ _ _ _
        split
        · split
          · exact ih _ _ _ _
          · simpa using ih _ _ _ _
        · exact ih _ _ _ _

theorem indexOf?_end {rest : Str} {k : Nat} (h : Occurrence.indexOf? TOOL_CALL_END_TAG rest = some k) :
    k + TOOL_CALL_END_TAG.length ≤ rest.length :=
  ((Occurrence.indexOf?_eq_some_iff (by decide)).mp h).1.length_le (by decide)

theorem limitExceeded_malformedEndTag {offset m : Nat} {rest : Str}
    (h : (limitExceeded offset rest).malformedEndTag = some m) :
    offset ≤ m ∧ m < offset + rest.length := by
  obtain ⟨k, hk, rfl⟩ := Option.map_eq_some_iff.mp h
  have hlen : TOOL_CALL_END_TAG.length = 12 := rfl
  have := indexOf?_end hk
  omega

theorem unclosedString_malformedEndTag {offset m : Nat} {inside : Str}
    (h : (unclosedString offset inside).malformedEndTag = some m) :
    offset ≤ m ∧ m < offset + inside.length := by
  unfold unclosedString at h
  split at h
  · cases h
  next k hk =>
    split at h
    · cases h
      have hlen : TOOL_CALL_END_TAG.length = 12 := rfl
      have := indexOf?_end hk
      omega
    · cases h

theorem indexOf?_marker {inside : Str} {stringEnd : Nat}
    (h : Occurrence.indexOf? TOOL_ARGS_STRING_INDICATOR inside = some stringEnd) :
    stringEnd + TOOL_ARGS_STRING_INDICATOR.length ≤ inside.length :=
  ((Occurrence.indexOf?_eq_some_iff (by decide)).mp h).1.length_le (by decide)

/-- An end tag that makes a candidate malformed is one of the text that is read. -/
theorem scan_malformedEndTag {offset skip : Nat} {mode : ScanMode} {closers : List Byte}
    {malformed : Bool} {text : Str} {m : Nat}
    (h : (scan offset skip mode closers malformed text).malformedEndTag = some m) :
    offset ≤ m ∧ m < offset + text.length := by
  induction text generalizing offset skip mode closers malformed with
  | nil => cases skip <;> cases h
  | cons c cs ih =>
    have hnext {skip' : Nat} {mode' : ScanMode} {closers' : List Byte} {malformed' : Bool}
        (h : (scan (offset + 1) skip' mode' closers' malformed' cs).malformedEndTag = some m) :
        offset ≤ m ∧ m < offset + (c :: cs).length := by
      have := ih h
      simp only [List.length_cons]
      omega
    have hhere : offset ≤ offset ∧ offset < offset + (c :: cs).length := by
      simp only [List.length_cons]
      omega
    unfold scan at h
    cases skip with
    | succ skip => exact hnext h
    | zero =>
      dsimp only at h
      split at h
      · exact limitExceeded_malformedEndTag h
      cases mode with
      | quoted escaped =>
        dsimp only at h
        split at h
        · split at h
          · cases h
            exact hhere
          · cases h
        repeat' split at h
        all_goals exact hnext h
      | plain =>
        have hmark : TOOL_ARGS_STRING_INDICATOR.length = 5 := rfl
        dsimp only at h
        split at h
        next hmarker =>
          have hlong := (List.isPrefixOf_iff_prefix.mp hmarker).length_le
          simp only [List.length_cons] at hlong ⊢
          split at h
          · have hbound : offset + 5 ≤ m ∧ m < offset + 5 + (cs.drop 4).length := by
              split at h
              · exact limitExceeded_malformedEndTag h
              · exact unclosedString_malformedEndTag h
            simp only [List.length_drop] at hbound
            omega
          next stringEnd hindex =>
            split at h
            · have hend := indexOf?_marker hindex
              have hbound := limitExceeded_malformedEndTag h
              simp only [List.length_drop] at hend hbound
              omega
            · exact hnext h
        split at h
        · exact hnext h
        split at h
        · cases h
          exact hhere
        split at h
        · split at h
          · exact limitExceeded_malformedEndTag h
          · exact hnext h
        repeat' split at h
        all_goals first | exact hnext h | cases h

/-- A native string at the beginning of a text. -/
theorem native_split {text : Str} {stringEnd : Nat}
    (hmarker : TOOL_ARGS_STRING_INDICATOR.isPrefixOf text = true)
    (hindex : Occurrence.indexOf? TOOL_ARGS_STRING_INDICATOR
      (text.drop TOOL_ARGS_STRING_INDICATOR.length) = some stringEnd) :
    ∃ s rest, ¬ TOOL_ARGS_STRING_INDICATOR <:+: s ∧ s.length = stringEnd ∧
      text = TOOL_ARGS_STRING_INDICATOR ++ (s ++ (TOOL_ARGS_STRING_INDICATOR ++ rest)) := by
  obtain ⟨inside, rfl⟩ := List.isPrefixOf_iff_prefix.mp hmarker
  rw [List.drop_left] at hindex
  obtain ⟨hsplit, hlen, hnone⟩ := Occurrence.split_at_first (by decide) hindex
  exact ⟨_, _, hnone, hlen, congrArg _ hsplit⟩

/-- What is read before the next item: the rest of a native string, or of a JSON string. -/
def Lead (skip : Nat) : ScanMode → Str → Prop
  | .plain, lead => lead.length = skip
  | .quoted escaped, lead => closingQuote escaped lead = some lead.length

/-- Where a close is found, the brackets that were due are closed one after the other. -/
theorem scan_sound {offset skip : Nat} {mode : ScanMode} {closers : List Byte} {malformed : Bool}
    {text : Str} {k : Nat} (hmode : mode = .plain ∨ skip = 0) (hne : closers ≠ [])
    (h : (scan offset skip mode closers malformed text).close = some k) :
    ∃ lead body tail, text = lead ++ (body ++ tail) ∧ Lead skip mode lead ∧ Closes closers body ∧
      k + 1 = offset + lead.length + body.length := by
  induction text generalizing offset skip mode closers malformed with
  | nil => cases skip <;> cases h
  | cons c cs ih =>
    unfold scan at h
    cases skip with
    | succ skip =>
      obtain rfl := hmode.resolve_right (by omega)
      obtain ⟨lead, body, tail, rfl, hlead, hbody, hk⟩ := ih (Or.inl rfl) hne h
      refine ⟨c :: lead, body, tail, rfl, ?_, hbody, ?_⟩
      · exact congrArg Nat.succ hlead
      · simp only [List.length_cons]
        omega
    | zero =>
      dsimp only at h
      split at h
      · cases h
      cases mode with
      | quoted escaped =>
        have again {mode' : ScanMode} (hnext : (scan (offset + 1) 0 mode' closers malformed cs).close = some k)
            (hlead : ∀ lead, Lead 0 mode' lead → closingQuote escaped (c :: lead) = some (c :: lead).length) :
            ∃ lead body tail, c :: cs = lead ++ (body ++ tail) ∧ Lead 0 (.quoted escaped) lead ∧
              Closes closers body ∧ k + 1 = offset + lead.length + body.length := by
          obtain ⟨lead, body, tail, rfl, hl, hbody, hk⟩ := ih (Or.inr rfl) hne hnext
          refine ⟨c :: lead, body, tail, rfl, hlead lead hl, hbody, ?_⟩
          simp only [List.length_cons]
          omega
        dsimp only at h
        split at h
        · split at h <;> cases h
        split at h
        next he =>
          subst he
          exact again h fun lead hl => closingQuote_cons_true hl
        next he =>
          obtain rfl : escaped = false := by simpa using he
          split at h
          next hb => exact again h fun lead hl => closingQuote_cons (by rw [hb]; decide) (by simpa [hb, Lead] using hl)
          next hb =>
            split at h
            next hq =>
              refine again h fun lead hl => ?_
              have hnil : lead = [] := List.length_eq_zero_iff.mp hl
              rw [hnil, closingQuote, if_neg hb, if_pos hq]
              rfl
            next hq => exact again h fun lead hl => closingQuote_cons hq (by simpa [hb, Lead] using hl)
      | plain =>
        have found {closers' : List Byte} (hne' : closers' ≠ [])
            (hnext : (scan (offset + 1) 0 .plain closers' malformed cs).close = some k) :
            ∃ body tail, cs = body ++ tail ∧ Closes closers' body ∧ k = offset + body.length := by
          obtain ⟨lead, body, tail, hcs, hl, hbody, hk⟩ := ih (Or.inl rfl) hne' hnext
          obtain rfl : lead = [] := List.length_eq_zero_iff.mp hl
          exact ⟨body, tail, hcs, hbody, by simp only [List.length_nil] at hk; omega⟩
        dsimp only at h
        split at h
        next hmarker =>
          split at h
          · split at h
            · cases h
            · unfold unclosedString at h
              split at h
              · cases h
              · split at h <;> cases h
          next stringEnd hindex =>
            split at h
            · cases h
            obtain ⟨lead, body, tail, hcs, hl, hbody, hk⟩ := ih (Or.inl rfl) hne h
            obtain ⟨s, rest, hnone, hlen, hsplit⟩ := native_split hmarker hindex
            have hlead : (c :: lead).length =
                (TOOL_ARGS_STRING_INDICATOR ++ (s ++ TOOL_ARGS_STRING_INDICATOR)).length := by
              have h5 : TOOL_ARGS_STRING_INDICATOR.length = 5 := rfl
              simp only [Lead] at hl
              simp only [List.length_cons, List.length_append, hl, hlen]
              omega
            have hboth : c :: lead ++ (body ++ tail) =
                TOOL_ARGS_STRING_INDICATOR ++ (s ++ TOOL_ARGS_STRING_INDICATOR) ++ rest := by
              rw [List.cons_append, ← hcs, hsplit]
              simp only [List.append_assoc]
            obtain ⟨hfront, hrest⟩ := List.append_inj hboth hlead
            rw [← hrest] at hsplit
            refine ⟨[], _, tail, ?_, rfl, hbody.native hnone hne, ?_⟩
            · rw [hsplit]
              simp only [List.nil_append, List.append_assoc]
            · simp only [List.length_cons, List.length_append] at hlead
              simp only [List.length_nil, List.length_append]
              omega
        next hmarker =>
          rw [List.isPrefixOf_iff_prefix] at hmarker
          split at h
          next hq =>
            obtain ⟨lead, body, tail, rfl, hl, hbody, hk⟩ := ih (Or.inr rfl) hne h
            rw [hq]
            refine ⟨[], quote :: (lead ++ body), tail, by simp, rfl, hbody.quoted hl hne, ?_⟩
            simp only [List.length_nil, List.length_cons, List.length_append]
            omega
          next hq =>
            split at h
            · cases h
            next hend =>
              rw [List.isPrefixOf_iff_prefix] at hend
              split at h
              next closer ho =>
                split at h
                · cases h
                obtain ⟨body, tail, rfl, hbody, hk⟩ := found (List.cons_ne_nil _ _) h
                refine ⟨[], c :: body, tail, rfl, rfl, hbody.nested ho hne, ?_⟩
                simp only [List.length_nil, List.length_cons]
                omega
              next ho =>
                split at h
                next hc =>
                  split at h
                  next hother =>
                    rw [scan_malformed] at h
                    cases h
                  next hother =>
                    obtain ⟨ks, rfl⟩ : ∃ ks, closers = c :: ks := by
                      cases closers with
                      | nil => exact absurd rfl hne
                      | cons d ks =>
                        refine ⟨ks, ?_⟩
                        have hd : d = c := by simpa using hother
                        rw [hd]
                    split at h
                    next hlast =>
                      obtain rfl : ks = [] := by
                        simp only [List.tail_cons, Bool.and_eq_true] at hlast
                        simpa using hlast.1
                      cases h
                      exact ⟨[], [c], cs, rfl, rfl, Closes.cons Body.nil Closes.nil, by simp⟩
                    next hlast =>
                      have hks : ks ≠ [] := by
                        rintro rfl
                        have hm : malformed = true := by simpa using hlast
                        rw [hm, scan_malformed] at h
                        cases h
                      obtain ⟨body, tail, rfl, hbody, hk⟩ := found hks h
                      refine ⟨[], c :: body, tail, rfl, rfl, Closes.cons Body.nil hbody, ?_⟩
                      simp only [List.length_nil, List.length_cons]
                      omega
                next hc =>
                  obtain ⟨body, tail, rfl, hbody, hk⟩ := found hne h
                  refine ⟨[], c :: body, tail, rfl, rfl,
                    hbody.byte ho (by simpa using hc) hq hmarker hend hne, ?_⟩
                  simp only [List.length_nil, List.length_cons]
                  omega

end Scan

/-- A close that is found ends a complete container. -/
theorem findMatchingContainerEnd_sound {text : Str} {bodyPos close : Nat} {opener closer : Byte}
    (h : (findMatchingContainerEnd text bodyPos opener closer).close = some close) :
    ∃ body tail, 0 < bodyPos ∧ text.drop (bodyPos - 1) = opener :: (body ++ closer :: tail) ∧
      Body body ∧ close = bodyPos + body.length := by
  unfold findMatchingContainerEnd at h
  cases bodyPos with
  | zero => cases h
  | succ openPos =>
    dsimp only at h
    split at h
    · cases h
    next hopen =>
      have hopen' : text[openPos]? = some opener := by simpa using hopen
      obtain ⟨k, hk, rfl⟩ := Option.map_eq_some_iff.mp h
      obtain ⟨lead, inside, tail, hsplit, hlead, hcloses, hlen⟩ :=
        scan_sound (Or.inl rfl) (List.cons_ne_nil _ _) hk
      obtain rfl : lead = [] := List.length_eq_zero_iff.mp hlead
      cases hcloses with
      | @cons _ _ body rest hbody hrest =>
        cases hrest
        obtain ⟨hlt, hget⟩ := List.getElem?_eq_some_iff.mp hopen'
        refine ⟨body, tail, by omega, ?_, hbody, ?_⟩
        · rw [Nat.add_sub_cancel, List.drop_eq_getElem_cons hlt, hget, hsplit]
          simp
        · simp only [List.length_nil, List.length_append, List.length_cons] at hlen
          omega

theorem findMatchingContainerEnd_malformed {text : Str} {bodyPos m : Nat} {opener closer : Byte}
    (h : (findMatchingContainerEnd text bodyPos opener closer).malformedEndTag = some m) :
    bodyPos ≤ m ∧ m < text.length := by
  unfold findMatchingContainerEnd at h
  cases bodyPos with
  | zero => cases h
  | succ openPos =>
    dsimp only at h
    split at h
    · cases h
    next hopen =>
      have hopen' : text[openPos]? = some opener := by simpa using hopen
      obtain ⟨hlt, _⟩ := List.getElem?_eq_some_iff.mp hopen'
      obtain ⟨k, hk, rfl⟩ := Option.map_eq_some_iff.mp h
      have := scan_malformedEndTag hk
      simp only [List.length_drop] at this
      omega

section Write

variable {rj : RapidJson} (hw : rj.WritesInPlace)
include hw

theorem writeJsonScalar_writes {token : Str} {event : Json.Event}
    (h : writeJsonScalar rj token = some event) :
    ∃ value : Json, rj.SameText [event] value.events := by
  unfold writeJsonScalar at h
  split at h
  · cases h
  next normalized hn =>
    split at h
    · cases h
    · split at h
      · cases h
        exact hw.normalize hn
      · cases h

theorem parseBareScalar_writes {rest rest' : Str} {events : List Json.Event}
    (h : parseBareScalar rj rest = some (events, rest')) :
    ∃ value : Json, rj.SameText events value.events := by
  unfold parseBareScalar at h
  dsimp only at h
  split at h
  · cases h
  · obtain ⟨event, he, heq⟩ := Option.map_eq_some_iff.mp h
    cases heq
    exact writeJsonScalar_writes hw he

theorem parseDelimitedString_writes {rest rest' : Str} {events : List Json.Event}
    (h : parseDelimitedString rj rest = some (events, rest')) :
    ∃ value : Json, rj.SameText events value.events := by
  unfold parseDelimitedString at h
  split at h
  · cases h
  next raw _ _ =>
    cases h
    exact ⟨.str raw, hw.escapeAsJsonString raw⟩

theorem parseJsonString_writes {rest rest' : Str} {events : List Json.Event}
    (h : parseJsonString rj rest = some (events, rest')) :
    ∃ value : Json, rj.SameText events value.events := by
  unfold parseJsonString at h
  split at h
  · cases h
  · obtain ⟨event, he, heq⟩ := Option.map_eq_some_iff.mp h
    cases heq
    exact writeJsonScalar_writes hw he

/-- Whatever is read is written as a JSON value. -/
theorem parse_writes (fuel : Nat) :
    (∀ rest events rest', parseValue rj fuel rest = some (events, rest') →
      ∃ value : Json, rj.SameText events value.events) ∧
    (∀ rest events rest', parseMembers rj fuel rest = some (events, rest') →
      ∃ members, rj.SameText events (Json.memberEvents members ++ [.endObject])) ∧
    (∀ rest events rest', parseItems rj fuel rest = some (events, rest') →
      ∃ items, rj.SameText events (Json.itemEvents items ++ [.endArray])) := by
  induction fuel with
  | zero => exact ⟨by simp [parseValue], by simp [parseMembers], by simp [parseItems]⟩
  | succ fuel ih =>
    obtain ⟨ihValue, ihMembers, ihItems⟩ := ih
    refine ⟨?value, ?members, ?items⟩
    case value =>
      intro rest events rest' h
      unfold parseValue at h
      split at h
      · cases h
      split at h
      · exact parseDelimitedString_writes hw h
      split at h
      · exact parseJsonString_writes hw h
      split at h
      · split at h
        · cases h
        split at h
        · cases h
          exact ⟨.obj [], SameText.refl rj _⟩
        · obtain ⟨⟨inner, _⟩, hp, heq⟩ := Option.map_eq_some_iff.mp h
          cases heq
          obtain ⟨members, hm⟩ := ihMembers _ _ _ hp
          exact ⟨.obj members, hm.cons .startObject⟩
      split at h
      · split at h
        · cases h
        split at h
        · cases h
          exact ⟨.arr [], SameText.refl rj _⟩
        · obtain ⟨⟨inner, _⟩, hp, heq⟩ := Option.map_eq_some_iff.mp h
          cases heq
          obtain ⟨items, hi⟩ := ihItems _ _ _ hp
          exact ⟨.arr items, hi.cons .startArray⟩
      · exact parseBareScalar_writes hw h
    case members =>
      intro rest events rest' h
      unfold parseMembers at h
      split at h
      · cases h
      next key _ _ =>
        split at h
        · cases h
        next inner _ hv =>
          obtain ⟨value, hvalue⟩ := ihValue _ _ _ hv
          split at h
          · cases h
          split at h
          · obtain ⟨⟨more, _⟩, hp, heq⟩ := Option.map_eq_some_iff.mp h
            cases heq
            obtain ⟨members, hm⟩ := ihMembers _ _ _ hp
            refine ⟨(key, value) :: members, ?_⟩
            simpa [Json.memberEvents, List.append_assoc] using (hvalue.append hm).cons (.key key)
          split at h
          · cases h
            refine ⟨[(key, value)], ?_⟩
            simpa [Json.memberEvents, List.append_assoc] using
              (hvalue.append (SameText.refl rj [.endObject])).cons (.key key)
          · cases h
    case items =>
      intro rest events rest' h
      unfold parseItems at h
      split at h
      · cases h
      next inner _ hv =>
        obtain ⟨value, hvalue⟩ := ihValue _ _ _ hv
        split at h
        · cases h
        split at h
        · obtain ⟨⟨more, _⟩, hp, heq⟩ := Option.map_eq_some_iff.mp h
          cases heq
          obtain ⟨items, hi⟩ := ihItems _ _ _ hp
          refine ⟨value :: items, ?_⟩
          simpa [Json.itemEvents, List.append_assoc] using hvalue.append hi
        split at h
        · cases h
          refine ⟨[value], ?_⟩
          simpa [Json.itemEvents, List.append_assoc] using hvalue.append (SameText.refl rj [.endArray])
        · cases h

theorem parseArguments_writes {fuel : Nat} {rest : Str} {events : List Json.Event}
    (h : parseArguments rj fuel rest = some events) :
    ∃ members, rj.SameText events (Json.memberEvents members ++ [.endObject]) := by
  induction fuel generalizing rest events with
  | zero => cases h
  | succ fuel ih =>
    unfold parseArguments at h
    split at h
    · cases h
    next key _ _ =>
      split at h
      · cases h
      next inner _ hv =>
        obtain ⟨value, hvalue⟩ := (parse_writes hw fuel).1 _ _ _ hv
        split at h
        · cases h
          refine ⟨[(key, value)], ?_⟩
          simpa [Json.memberEvents, List.append_assoc] using
            (hvalue.append (SameText.refl rj [.endObject])).cons (.key key)
        split at h
        · dsimp only at h
          split at h
          · cases h
          obtain ⟨more, hp, rfl⟩ := Option.map_eq_some_iff.mp h
          obtain ⟨members, hm⟩ := ih hp
          refine ⟨(key, value) :: members, ?_⟩
          simpa [Json.memberEvents, List.append_assoc] using (hvalue.append hm).cons (.key key)
        · cases h

/-- Published arguments are the writing of a JSON object. -/
theorem parseNativeArgumentsBody_writes {body arguments : Str}
    (h : parseNativeArgumentsBody rj body = some arguments) :
    ∃ members, arguments = rj.write (Json.obj members).events := by
  obtain ⟨events, hp, rfl⟩ := Option.map_eq_some_iff.mp h
  unfold parseArgumentsBody at hp
  dsimp only at hp
  split at hp
  · cases hp
    exact ⟨[], rfl⟩
  · obtain ⟨more, hm, rfl⟩ := Option.map_eq_some_iff.mp hp
    obtain ⟨members, hs⟩ := parseArguments_writes hw hm
    exact ⟨members, (hs.cons .startObject).write_eq⟩

end Write

end ModelServer.Gemma4ToolParser
