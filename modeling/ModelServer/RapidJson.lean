import Mathlib.Data.List.TakeWhile
import ModelServer.ByteStrings
import ModelServer.Json

namespace ModelServer

/-- RapidJSON, which is not part of the repository. Texts reach it through
`c_str()`, so `read` and `document` are applied to texts without a NUL. -/
structure RapidJson where
  /-- `Reader::Parse` with `kParseNumbersAsStringsFlag`: the value whose SAX calls the handler gets. -/
  read : Str → Option Json
  /-- `Document::Parse`; a number is kept as the spelling a `Writer` gives it. -/
  document : Str → Option Json
  /-- The text a `Writer` over a `StringBuffer` holds after these calls. -/
  write : List Json.Event → Str

namespace RapidJson

/-- Parses one JSON value and writes it back without changing number spelling. -/
def normalizeJsonLosslessly (rj : RapidJson) (input : Str) : Option Str :=
  match rj.read (cStr input) with
  | none => none
  | some value =>
    -- stream.Tell() stops at the first NUL
    if (cStr input).length = input.length then some (rj.write value.events) else none

def escapeAsJsonString (rj : RapidJson) (rawValue : Str) : Str :=
  cStr (rj.write [.str rawValue])

/-- Two parts of a writer's calls leave the same text wherever they stand. -/
def SameText (rj : RapidJson) (part part' : List Json.Event) : Prop :=
  ∀ pre post, rj.write (pre ++ (part ++ post)) = rj.write (pre ++ (part' ++ post))

theorem SameText.refl (rj : RapidJson) (part : List Json.Event) : rj.SameText part part :=
  fun _ _ => rfl

theorem SameText.append {rj : RapidJson} {a a' b b' : List Json.Event} (h : rj.SameText a a')
    (h' : rj.SameText b b') : rj.SameText (a ++ b) (a' ++ b') := by
  intro pre post
  rw [List.append_assoc, h, ← List.append_assoc pre, h', List.append_assoc, List.append_assoc]

theorem SameText.cons {rj : RapidJson} {a a' : List Json.Event} (h : rj.SameText a a')
    (event : Json.Event) : rj.SameText (event :: a) (event :: a') :=
  (SameText.refl rj [event]).append h

theorem SameText.write_eq {rj : RapidJson} {a a' : List Json.Event} (h : rj.SameText a a') :
    rj.write a = rj.write a' := by
  simpa using h [] []

/-- What the code relies on of a `Writer`: `RawValue` puts a finished value in place,
and a written string has no NUL. -/
structure WritesInPlace (rj : RapidJson) : Prop where
  raw : ∀ value : Json, rj.SameText [.raw (rj.write value.events)] value.events
  string : ∀ s, 0 ∉ rj.write [.str s]

theorem cStr_of_noNul {text : Str} (h : 0 ∉ text) : cStr text = text := by
  refine List.takeWhile_eq_self_iff.mpr ?_
  intro c hc
  have hne : c ≠ 0 := by
    rintro rfl
    exact h hc
  simpa using hne

/-- An escaped string is written as the string itself. -/
theorem WritesInPlace.escapeAsJsonString {rj : RapidJson} (h : rj.WritesInPlace) (s : Str) :
    rj.SameText [.raw (rj.escapeAsJsonString s)] [.str s] := by
  rw [RapidJson.escapeAsJsonString, cStr_of_noNul (h.string s)]
  exact h.raw (.str s)

/-- A normalized text is written as the value it was read as. -/
theorem WritesInPlace.normalize {rj : RapidJson} (h : rj.WritesInPlace) {input normalized : Str}
    (hn : rj.normalizeJsonLosslessly input = some normalized) :
    ∃ value : Json, rj.SameText [.raw normalized] value.events := by
  unfold normalizeJsonLosslessly at hn
  split at hn
  · cases hn
  next value _ =>
    split at hn
    · cases Option.some.inj hn
      exact ⟨value, h.raw value⟩
    · cases hn

end RapidJson

/-- The results of successive calls of `generateRandomId`. -/
structure RandomIds where
  draw : Nat → Str
  nonempty : ∀ n, draw n ≠ []
  /-- The generator never runs into a finite set for good. -/
  fresh : ∀ (taken : List Str) (n : Nat), ∃ m, n ≤ m ∧ draw m ∉ taken

/-- Every text of a list is shorter than some bound. -/
theorem exists_longer (taken : List Str) : ∃ bound, ∀ text ∈ taken, text.length < bound := by
  induction taken with
  | nil => exact ⟨0, by simp⟩
  | cons text taken ih =>
    obtain ⟨bound, hbound⟩ := ih
    refine ⟨max bound (text.length + 1), ?_⟩
    intro other hm
    rcases List.mem_cons.mp hm with rfl | hm
    · omega
    · have := hbound other hm
      omega

/-- Ids that grow by one byte with every draw. -/
def RandomIds.growing : RandomIds where
  draw n := List.replicate (n + 1) 48
  nonempty n := by simp
  fresh taken n := by
    obtain ⟨bound, hbound⟩ := exists_longer taken
    refine ⟨n + bound, by omega, ?_⟩
    intro hmem
    have hlt := hbound _ hmem
    simp only [List.length_replicate] at hlt
    omega

end ModelServer
