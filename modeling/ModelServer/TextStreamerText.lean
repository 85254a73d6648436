import Mathlib.Data.List.Infix
import Mathlib.Data.List.TakeWhile
import ModelServer.TextStreamerCompletion

namespace ModelServer.OVMSTextStreamer

section Decoder

/-- A text that does not end in U+FFFD is never taken back, one that does only loses it. -/
structure PrefixStable (d : List Int → Str) : Prop where
  complete : ∀ xs ys, is_incomplete (d xs) = false → d (xs ++ ys) = d xs ++ d ys
  held : ∀ xs ys, is_incomplete (d xs) = true →
    (d xs).take ((d xs).length - replacement.length) <+: d (xs ++ ys)

variable (d : List Int → Str)

/-- No text of these tokens is held back. -/
def Anchored (tokens : List Int) : Prop := tokens = [] ∨ is_incomplete (d tokens) = false

instance (tokens : List Int) : Decidable (Anchored d tokens) := inferInstanceAs (Decidable (_ ∨ _))

/-- The text of tokens of which none is held back. -/
def settled (tokens : List Int) : Str := if tokens = [] then [] else d tokens

/-- The longest beginning of which no text is held back. -/
def lastAnchored (tokens : List Int) : List Int :=
  tokens.inits.foldl (fun best tokens => if Anchored d tokens then tokens else best) []

theorem lastAnchored_append (tokens : List Int) (token : Int) :
    lastAnchored d (tokens ++ [token]) =
      if Anchored d (tokens ++ [token]) then tokens ++ [token] else lastAnchored d tokens := by
  simp [lastAnchored, List.inits_append, List.foldl_append]

theorem lastAnchored_anchored (tokens : List Int) : Anchored d (lastAnchored d tokens) := by
  induction tokens using List.reverseRecOn with
  | nil => exact Or.inl rfl
  | append_singleton tokens token ih =>
    rw [lastAnchored_append]
    split
    next h => exact h
    · exact ih

theorem lastAnchored_isPrefix (tokens : List Int) : lastAnchored d tokens <+: tokens := by
  induction tokens using List.reverseRecOn with
  | nil => exact List.prefix_refl _
  | append_singleton tokens token ih =>
    rw [lastAnchored_append]
    split
    · exact List.prefix_refl _
    · exact ih.trans (List.prefix_append _ _)

theorem isPrefix_lastAnchored {p tokens : List Int} (hp : p <+: tokens) (ha : Anchored d p) :
    p <+: lastAnchored d tokens := by
  induction tokens using List.reverseRecOn with
  | nil => exact hp
  | append_singleton tokens token ih =>
    rw [lastAnchored_append]
    split
    · exact hp
    next hnot =>
      rcases List.prefix_concat_iff.mp hp with heq | hp
      · rw [heq] at ha
        exact absurd ha hnot
      · exact ih hp

theorem settled_eq {tokens : List Int} (h : tokens ≠ []) : settled d tokens = d tokens := if_neg h

variable {d} (hd : PrefixStable d)
include hd

theorem Anchored.append {p : List Int} (h : Anchored d p) (tokens : List Int) :
    d (p ++ tokens) = settled d p ++ d tokens := by
  unfold settled
  split
  next hnil => simp [hnil]
  next hne => exact hd.complete p tokens (h.resolve_left hne)

theorem Anchored.settled_append {p : List Int} (h : Anchored d p) (tokens : List Int) :
    settled d (p ++ tokens) = settled d p ++ settled d tokens := by
  by_cases hnil : tokens = []
  · simp [settled, hnil]
  · have hne : p ++ tokens ≠ [] := by simp [hnil]
    rw [settled, if_neg hne, h.append hd, settled, settled, if_neg hnil]

theorem settled_isPrefix {p q : List Int} (hp : Anchored d p) (hpq : p <+: q) :
    settled d p <+: settled d q := by
  obtain ⟨tokens, rfl⟩ := hpq
  rw [hp.settled_append hd]
  exact List.prefix_append _ _

omit hd in
/-- U+FFFD has no newline in it. -/
theorem is_incomplete_append {front text : Str} (h : front = [] ∨ front.getLast? = some (char '\n')) :
    is_incomplete (front ++ text) = is_incomplete text := by
  rcases h with rfl | hlast
  · rfl
  · unfold is_incomplete
    rw [Bool.eq_iff_iff, List.isSuffixOf_iff_suffix, List.isSuffixOf_iff_suffix]
    constructor
    · intro hsuffix
      by_cases hlen : replacement.length ≤ text.length
      · exact List.suffix_of_suffix_length_le hsuffix (List.suffix_append _ _) hlen
      · exfalso
        have hsuffix' : text <:+ replacement :=
          List.suffix_of_suffix_length_le (List.suffix_append _ _) hsuffix (by omega)
        obtain ⟨part, hpart⟩ := hsuffix'
        have hne : part ≠ [] := by
          rintro rfl
          rw [List.nil_append] at hpart
          rw [hpart] at hlen
          exact hlen le_rfl
        rw [← hpart] at hsuffix
        obtain ⟨pre, hpre⟩ := List.suffix_append_self_iff.mp hsuffix
        rw [← hpre, List.getLast?_append_of_ne_nil _ hne] at hlast
        have hmem : char '\n' ∈ replacement := by
          rw [← hpart]
          exact List.mem_append_left _ (List.mem_of_getLast? hlast)
        exact absurd hmem (by decide)
    · intro hsuffix
      exact hsuffix.trans (List.suffix_append _ _)

end Decoder

section Delivery

variable {σ : Type} (env : Environment σ) {s : Streamer σ}

/-- The text that has been given out. -/
def Streamer.delivered (s : Streamer σ) : Str := contentText (s.called.map (·.delta))

/-- A flush never cuts before what has been printed, nor behind the text. -/
def Bounded (s : Streamer σ) : Prop :=
  ∀ flush ∈ s.flushed, flush.printedLen ≤ flush.printUntil ∧ flush.printUntil ≤ flush.textLen

def Stopped (s : Streamer σ) : Prop := s.completion = .aborted ∧ s.abortStatus ≠ .running

/-- The streamer goes on as `P` says, or the callback has stopped it. -/
def Yields (P : Streamer σ → Prop) (result : Result σ) : Prop :=
  Bounded result.2 ∧ (result.1 = some .running ∧ P result.2 ∨
    result.1 = some result.2.abortStatus ∧ Stopped result.2)

/-- The decoding in force. -/
def Environment.text (env : Environment σ) : List Int → Str := env.decode env.userWantsSpecial

/-- What `m_decoded_lengths` holds of these tokens. -/
def mark (d : List Int → Str) (tokens : List Int) : Int :=
  if is_incomplete (d tokens) then -1 else (d tokens).length

def marks (d : List Int → Str) (tokens : List Int) : List Int := tokens.inits.tail.map (mark d)

/-- The tokens of the cache begin behind a newline, `rest` are still to be read again, and a
beginning of all of them has been given out. -/
structure Written (before rest : List Int) (s : Streamer σ) : Prop where
  running : Open s
  special : s.decodeSpecialTokens = env.userWantsSpecial
  newline : before = [] ∨ (env.text before).getLast? = some (char '\n')
  lengths : s.decodedLengths = marks env.text s.tokensCache
  printed : ∃ p, p <+: s.tokensCache ++ rest ∧ Anchored env.text p ∧
    s.printedLen = (settled env.text p).length ∧
    s.delivered = settled env.text before ++ settled env.text p

variable {env}

theorem Yields.andThen {P Q : Streamer σ → Prop} {result : Result σ} {next : Streamer σ → Result σ}
    (h : Yields P result) (hnext : ∀ t, Bounded t → P t → Yields Q (next t)) :
    Yields Q (result.andThen next) := by
  obtain ⟨status, t⟩ := result
  obtain ⟨hbounded, ⟨hrunning, hp⟩ | ⟨hstatus, hstopped⟩⟩ := h
  · have heq : status = some .running := hrunning
    rw [heq]
    exact hnext t hbounded hp
  · have heq : status = some t.abortStatus := hstatus
    have hne : t.abortStatus ≠ .running := hstopped.2
    rw [heq]
    cases hs : t.abortStatus with
    | running => exact absurd hs hne
    | stop | cancel =>
      refine ⟨hbounded, Or.inr ⟨?_, hstopped⟩⟩
      show some _ = some t.abortStatus
      rw [hs]

theorem Yields.mono {P Q : Streamer σ → Prop} {result : Result σ} (h : Yields P result)
    (hpq : ∀ t, P t → Q t) : Yields Q result :=
  ⟨h.1, h.2.imp (fun hp => ⟨hp.1, hpq _ hp.2⟩) id⟩

/-- A callback that lets the streamer run changes nothing but what has been called. -/
theorem call_yields (h : s.completion = .open) (hbounded : Bounded s) (delta : Delta) (isLast : Bool) :
    Yields (fun t => t = { s with called := s.called ++ [⟨delta, isLast, .running⟩] })
      (some (s.call env delta isLast).1, (s.call env delta isLast).2) := by
  have hopen : s.completion ≠ .aborted := by simp [h]
  unfold Streamer.call Streamer.observe
  dsimp only
  rw [if_neg hopen]
  split
  next hrunning =>
    refine ⟨hbounded, Or.inl ⟨by rw [hrunning], ?_⟩⟩
    show _ = _
    rw [hrunning]
  next hother => exact ⟨hbounded, Or.inr ⟨rfl, rfl, hother⟩⟩

/-- What a flush leaves behind. -/
structure Flushed (s : Streamer σ) (chunk : Str) (printUntil : Nat) (finishReason : FinishReason)
    (t : Streamer σ) : Prop where
  completion : t.completion = .open
  quiet : finishReason = .none → Quiet t.called
  delivered : t.delivered = s.delivered ++ chunk
  printedLen : t.printedLen = printUntil
  tokensCache : t.tokensCache = s.tokensCache
  decodedLengths : t.decodedLengths = s.decodedLengths
  special : t.decodeSpecialTokens = s.decodeSpecialTokens

/-- A flush of a streamer without a parser gives out the slice of the text. -/
theorem flush_yields (henv : env.outputParser = none) (h : Open s) (hbounded : Bounded s) {text : Str}
    {printUntil : Nat} (hle : s.printedLen ≤ printUntil) (hlen : printUntil ≤ text.length)
    (finishReason : FinishReason) :
    Yields (Flushed s (substr text s.printedLen (printUntil - s.printedLen)) printUntil finishReason)
      (s.flush_chunk env text printUntil finishReason) := by
  have hopen : Streamer.completion { s with
      printedLen := printUntil
      flushed := s.flushed ++ [⟨s.printedLen, printUntil, text.length⟩] } = .open := h.completion
  have hbounded' : Bounded { s with
      printedLen := printUntil
      flushed := s.flushed ++ [⟨s.printedLen, printUntil, text.length⟩] } := by
    intro flush hm
    rcases List.mem_append.mp hm with hm | hm
    · exact hbounded flush hm
    · rw [List.mem_singleton.mp hm]
      exact ⟨hle, hlen⟩
  have hcontent (called : List Call) (delta : Delta) (isLast : Bool) :
      contentText ((called ++ [(⟨delta, isLast, .running⟩ : Call)]).map (·.delta)) =
        contentText (called.map (·.delta)) ++ contentText [delta] := by
    rw [List.map_append, contentText_append]
    rfl
  unfold Streamer.flush_chunk Streamer.parse Streamer.drainDeltas
  rw [henv]
  dsimp only
  generalize hchunk : substr text s.printedLen (printUntil - s.printedLen) = chunk
  unfold Streamer.giveOut
  by_cases hempty : chunk.isEmpty = true
  · have hnil : chunk = [] := List.isEmpty_iff.mp hempty
    rw [if_pos hempty]
    dsimp only
    by_cases hreason : finishReason = .none
    · rw [if_neg (by simp [hreason])]
      refine ⟨hbounded', Or.inl ⟨rfl, h.completion, fun _ => h.quiet, ?_, rfl, rfl, rfl, rfl⟩⟩
      rw [hnil, List.append_nil]
      rfl
    · rw [if_pos (by simpa using hreason)]
      refine (call_yields hopen hbounded' .finish true).mono ?_
      rintro t rfl
      refine ⟨h.completion, fun hnone => absurd hnone hreason, ?_, rfl, rfl, rfl, rfl⟩
      rw [hnil]
      exact hcontent s.called .finish true
  · rw [if_neg hempty]
    dsimp only
    refine (call_yields hopen hbounded' (.content chunk) _).mono ?_
    rintro t rfl
    refine ⟨h.completion, fun hnone => ?_, ?_, rfl, rfl, rfl, rfl⟩
    · exact h.quiet.append (by simp [hnone]) rfl
    · refine (hcontent s.called (.content chunk) _).trans ?_
      simp [contentText, Streamer.delivered]

theorem marks_append (d : List Int → Str) (tokens : List Int) (token : Int) :
    marks d (tokens ++ [token]) = marks d tokens ++ [mark d (tokens ++ [token])] := by
  have hinits : (tokens ++ [token]).inits = tokens.inits ++ [tokens ++ [token]] := by
    simp [List.inits_append]
  have hne : tokens.inits ≠ [] := by cases tokens <;> simp
  rw [marks, hinits, List.tail_append_of_ne_nil hne, List.map_append]
  rfl

theorem length_marks (d : List Int → Str) (tokens : List Int) : (marks d tokens).length = tokens.length := by
  simp [marks]

theorem marks_take (d : List Int → Str) (tokens : List Int) (n : Nat) :
    (marks d tokens).take n = marks d (tokens.take n) := by
  apply List.ext_getElem
  · simp [length_marks]
  · intro i hi hi'
    have hle : i + 1 ≤ n := by
      simp only [List.length_take] at hi
      omega
    simp [marks, List.take_take, Nat.min_eq_left hle]

theorem marks_getD (d : List Int → Str) (tokens : List Int) {i : Nat} (h : i < tokens.length) :
    (marks d tokens).getD i 0 = mark d (tokens.take (i + 1)) := by
  have hlen : i < (marks d tokens).length := by rw [length_marks]; exact h
  rw [List.getD_eq_getElem?_getD, List.getElem?_eq_getElem hlen, Option.getD_some]
  simp [marks]

theorem anchored_of_mark {d : List Int → Str} {tokens : List Int} (h : 0 < mark d tokens) :
    Anchored d tokens ∧ mark d tokens = (d tokens).length := by
  unfold mark at h ⊢
  split at h
  · omega
  next hcomplete =>
    have hfalse : is_incomplete (d tokens) = false := by simpa using hcomplete
    exact ⟨Or.inr hfalse, by rw [if_neg hcomplete]⟩

/-- Of two settled beginnings the one with the longer text is the longer one. -/
theorem settled_split {d : List Int → Str} (hd : PrefixStable d) {p q tokens : List Int}
    (hp : p <+: tokens) (ha : Anchored d p) (hq : q <+: tokens) (hb : Anchored d q)
    (hlt : (settled d p).length < (settled d q).length) :
    p <+: q ∧ settled d p ++ (settled d q).drop (settled d p).length = settled d q := by
  have hpq : p <+: q := by
    rcases List.prefix_or_prefix_of_prefix hp hq with h | h
    · exact h
    · have hle := (settled_isPrefix hd hb h).length_le
      omega
  refine ⟨hpq, ?_⟩
  obtain ⟨rest, hrest⟩ := settled_isPrefix hd ha hpq
  rw [← hrest, List.drop_left]

/-- A flush up to the text of `q` gives out what is still missing of it. -/
theorem settled_flush {d : List Int → Str} (hd : PrefixStable d) {p q tokens rest : List Int}
    (hp : p <+: tokens ++ rest) (ha : Anchored d p) (hq : q <+: tokens) (hb : Anchored d q) (hne : q ≠ [])
    (hlt : (settled d p).length < (d q).length) :
    p <+: q ∧ (d q).length ≤ (d tokens).length ∧
      settled d p ++ substr (d tokens) (settled d p).length ((d q).length - (settled d p).length) =
        settled d q := by
  have hsettled : settled d q = d q := if_neg hne
  obtain ⟨more, rfl⟩ := hq
  obtain ⟨hpq, hsplit⟩ := settled_split hd hp ha ((List.prefix_append q more).trans (List.prefix_append _ rest))
    hb (by rw [hsettled]; exact hlt)
  have htext : d (q ++ more) = d q ++ d more := by rw [hb.append hd, hsettled]
  refine ⟨hpq, by rw [htext, List.length_append]; omega, ?_⟩
  have hcut : substr (d (q ++ more)) (settled d p).length ((d q).length - (settled d p).length) =
      (d q).drop (settled d p).length := by
    rw [substr, htext, List.drop_append_of_le_length (by omega), List.take_left' (by simp)]
  rw [hcut, ← hsettled, hsplit]

/-- Everything that could be given out has been given out. -/
def Covered (env : Environment σ) (s : Streamer σ) : Prop :=
  ∀ q, q <+: s.tokensCache → Anchored env.text q → (settled env.text q).length ≤ s.printedLen

/-- A token has been read; an immediate flush leaves nothing settled behind. -/
structure Read (env : Environment σ) (s : Streamer σ) (before rest : List Int) (token : Int)
    (immediateFlush : Bool) (t : Streamer σ) : Prop where
  written : ∃ before', Written env before' rest t ∧ before' ++ t.tokensCache = before ++ s.tokensCache ++ [token]
  covered : immediateFlush = true → Covered env t

theorem Yields.clear {P Q : Streamer σ → Prop} {result : Result σ} (h : Yields P result)
    (hpq : ∀ t, P t → Q t.clearCache) : Yields Q (result.1, result.2.clearCache) :=
  ⟨h.1, h.2.imp (fun hp => ⟨hp.1, hpq _ hp.2⟩) id⟩

/-- A text that ends in a newline is complete. -/
theorem complete_of_newline {text : Str} (h : text.getLast? = some (char '\n')) : is_incomplete text = false := by
  have happend : is_incomplete (text ++ []) = is_incomplete [] := is_incomplete_append (Or.inr h)
  rw [List.append_nil] at happend
  rw [happend]
  decide

/-- Up to the token the streamer is as it was before it. -/
theorem Written.receive {before : List Int} (h : Written env before [] s) (token : Int) :
    Written env before [token] s where
  running := h.running
  special := h.special
  newline := h.newline
  lengths := h.lengths
  printed := by
    obtain ⟨p, hp, hrest⟩ := h.printed
    rw [List.append_nil] at hp
    exact ⟨p, hp.trans (List.prefix_append _ _), hrest⟩

/-- A beginning that reaches over the last token is all of it. -/
theorem Covered.append {cache : List Int} {token : Int} {printedLen : Nat}
    (h : ∀ q, q <+: cache → Anchored env.text q → (settled env.text q).length ≤ printedLen)
    (hlast : Anchored env.text (cache ++ [token]) → (env.text (cache ++ [token])).length ≤ printedLen) :
    ∀ q, q <+: cache ++ [token] → Anchored env.text q → (settled env.text q).length ≤ printedLen := by
  intro q hq ha
  rcases List.prefix_concat_iff.mp hq with heq | hq
  · subst heq
    rw [settled, if_neg (by simp)]
    exact hlast ha
  · exact h q hq ha

theorem decodeToken_yields (henv : env.outputParser = none) (hd : PrefixStable env.text)
    {before rest : List Int} {token : Int} (h : Written env before (token :: rest) s) (hbounded : Bounded s)
    (immediateFlush : Bool) (hcovered : immediateFlush = true → Covered env s) :
    Yields (Read env s before rest token immediateFlush) (s.decodeToken env token immediateFlush) := by
  obtain ⟨p, hp, ha, hprinted, hdelivered⟩ := h.printed
  have hmore : s.tokensCache ++ token :: rest = (s.tokensCache ++ [token]) ++ rest := by simp
  rw [hmore] at hp
  have htext : env.decode s.decodeSpecialTokens (s.tokensCache ++ [token]) =
      env.text (s.tokensCache ++ [token]) := by rw [h.special]; rfl
  have hlengths : s.decodedLengths ++ [mark env.text (s.tokensCache ++ [token])] =
      marks env.text (s.tokensCache ++ [token]) := by rw [marks_append, h.lengths]
  have hwhole : before ++ (s.tokensCache ++ [token]) = before ++ s.tokensCache ++ [token] := by simp
  unfold Streamer.decodeToken Streamer.decoded
  dsimp only
  rw [htext]
  generalize hcache : s.tokensCache ++ [token] = cache at *
  have hne : cache ≠ [] := by rw [← hcache]; simp
  have hopen : Open { s with
      tokensCache := cache
      decodedLengths := s.decodedLengths ++ [((env.text cache).length : Int)] } :=
    ⟨h.running.completion, h.running.quiet⟩
  -- a flush of the text of a beginning `q` of the cache
  have hflush {q : List Int} (hq : q <+: cache) (hb : Anchored env.text q) (hqne : q ≠ [])
      (hlt : s.printedLen < (env.text q).length) :
      Yields (fun t => Open t ∧ t.delivered = settled env.text before ++ settled env.text q ∧
          t.printedLen = (env.text q).length ∧ t.tokensCache = cache ∧
          t.decodedLengths = s.decodedLengths ++ [((env.text cache).length : Int)] ∧
          t.decodeSpecialTokens = env.userWantsSpecial)
        (Streamer.flush_chunk env { s with
          tokensCache := cache
          decodedLengths := s.decodedLengths ++ [((env.text cache).length : Int)] }
          (env.text cache) (env.text q).length .none) := by
    rw [hprinted] at hlt
    obtain ⟨_, hlen, hsplit⟩ := settled_flush hd hp ha hq hb hqne hlt
    refine (flush_yields henv hopen hbounded ?_ hlen .none).mono ?_
    · show s.printedLen ≤ _
      omega
    · rintro t ⟨hcompletion, hquiet, htold, hlen', hcache', hlengths', hspecial'⟩
      refine ⟨⟨hcompletion, hquiet rfl⟩, ?_, hlen', hcache', hlengths', hspecial'.trans h.special⟩
      rw [htold]
      show s.delivered ++ substr (env.text cache) s.printedLen ((env.text q).length - s.printedLen) = _
      rw [hdelivered, hprinted, List.append_assoc, hsplit]
  -- without a flush the streamer is as before, with the token read
  have hstay {lengths : List Int} (hlengths' : lengths = marks env.text cache)
      (hlast : immediateFlush = true → Anchored env.text cache → (env.text cache).length ≤ s.printedLen) :
      Read env s before rest token immediateFlush { s with
        tokensCache := cache
        decodedLengths := lengths } := by
    refine ⟨⟨before, ⟨⟨h.running.completion, h.running.quiet⟩, h.special, h.newline, hlengths',
      p, hp, ha, hprinted, hdelivered⟩, hwhole⟩, fun himmediate => ?_⟩
    show ∀ q, q <+: cache → _
    rw [← hcache] at hlast ⊢
    exact Covered.append (hcovered himmediate) (hlast himmediate)
  split
  next hnewline =>
    obtain ⟨hend, hlong⟩ := hnewline
    have hcomplete : Anchored env.text cache := Or.inr (complete_of_newline hend)
    have hyields := hflush (List.prefix_refl _) hcomplete hne hlong
    have hclear : ∀ t : Streamer σ, (Open t ∧ t.delivered = settled env.text before ++ settled env.text cache ∧
          t.printedLen = (env.text cache).length ∧ t.tokensCache = cache ∧
          t.decodedLengths = s.decodedLengths ++ [((env.text cache).length : Int)] ∧
          t.decodeSpecialTokens = env.userWantsSpecial) →
        Read env s before rest token immediateFlush t.clearCache := by
      rintro t ⟨hrunning, htold, _, _, _, hspecial⟩
      have hanchored : Anchored env.text before := h.newline.imp id complete_of_newline
      have hnewline' : (env.text (before ++ cache)).getLast? = some (char '\n') := by
        rw [hanchored.append hd, List.getLast?_append, hend]
        rfl
      refine ⟨⟨before ++ cache, ⟨⟨hrunning.completion, hrunning.quiet⟩, hspecial, Or.inr hnewline', rfl, [],
        List.nil_prefix, Or.inl rfl, rfl, ?_⟩, ?_⟩, fun _ q hq _ => ?_⟩
      · show t.delivered = _
        rw [htold, hanchored.settled_append hd]
        simp [settled]
      · show before ++ cache ++ [] = _
        rw [List.append_nil, hwhole]
      · have hnil : q = [] := List.prefix_nil.mp hq
        rw [hnil]
        exact Nat.zero_le _
    split
    next t heq =>
      rw [heq] at hyields
      rcases hyields.2 with ⟨hnone, _⟩ | ⟨hnone, _⟩ <;> cases hnone
    next status t heq =>
      rw [heq] at hyields
      exact hyields.clear hclear
  · split
    next hincomplete =>
      have hheld : s.decodedLengths ++ [-1] = marks env.text cache := by
        rw [← hlengths, mark, if_pos hincomplete]
      refine ⟨hbounded, Or.inl ⟨rfl, ?_⟩⟩
      rw [List.dropLast_concat]
      refine hstay hheld fun _ hanchored => ?_
      rw [hanchored.resolve_left hne] at hincomplete
      cases hincomplete
    next hcomplete =>
      have hanchored : Anchored env.text cache := Or.inr (by simpa using hcomplete)
      have hsettled : s.decodedLengths ++ [((env.text cache).length : Int)] = marks env.text cache := by
        rw [← hlengths, mark, if_neg hcomplete]
      -- a flush within the cache leaves the cache as it is
      have hread {q : List Int} (hq : q <+: cache) (hb : Anchored env.text q) (hqne : q ≠ [])
          (himmediate : immediateFlush = true → q = cache) (t : Streamer σ)
          (ht : Open t ∧ t.delivered = settled env.text before ++ settled env.text q ∧
            t.printedLen = (env.text q).length ∧ t.tokensCache = cache ∧
            t.decodedLengths = s.decodedLengths ++ [((env.text cache).length : Int)] ∧
            t.decodeSpecialTokens = env.userWantsSpecial) :
          Read env s before rest token immediateFlush t := by
        obtain ⟨hrunning, htold, hlen, hcache', hlengths', hspecial⟩ := ht
        refine ⟨⟨before, ⟨hrunning, hspecial, h.newline, ?_, q, ?_, hb, ?_, htold⟩, ?_⟩, fun hflag => ?_⟩
        · rw [hlengths', hsettled, hcache']
        · rw [hcache']
          exact hq.trans (List.prefix_append _ _)
        · rw [hlen, settled, if_neg hqne]
        · rw [hcache', hwhole]
        · intro r hr hra
          rw [hcache'] at hr
          have hle := (settled_isPrefix hd hra hr).length_le
          rw [settled_eq env.text hne] at hle
          rw [hlen, himmediate hflag]
          exact hle
      split
      next himmediate =>
        split
        next hlong =>
          exact (hflush (List.prefix_refl _) hanchored hne hlong).mono
            (hread (List.prefix_refl _) hanchored hne fun _ => rfl)
        next hshort =>
          exact ⟨hbounded, Or.inl ⟨rfl, hstay hsettled fun _ _ => by omega⟩⟩
      next hdelayed =>
        have hwait : Yields (Read env s before rest token immediateFlush) (some .running, { s with
            tokensCache := cache
            decodedLengths := s.decodedLengths ++ [((env.text cache).length : Int)] }) :=
          ⟨hbounded, Or.inl ⟨rfl, hstay hsettled fun hflag => absurd hflag hdelayed⟩⟩
        split
        · exact hwait
        next hmany =>
          split
          · exact hwait
          next hprint =>
            have hn : (s.decodedLengths ++ [((env.text cache).length : Int)]).length = cache.length := by
              rw [hsettled, length_marks]
            have h3 : DELAY_N_TOKENS = 3 := rfl
            rw [hn] at hmany hprint ⊢
            rw [hsettled, marks_getD _ _ (by omega)] at hprint
            rw [hsettled] at hflush hread ⊢
            rw [marks_getD _ _ (by omega)]
            have hpositive : 0 < mark env.text (cache.take (cache.length - DELAY_N_TOKENS + 1)) := by omega
            obtain ⟨hb, hmark⟩ := anchored_of_mark hpositive
            rw [hmark] at hprint ⊢
            have hqne : cache.take (cache.length - DELAY_N_TOKENS + 1) ≠ [] := by
              simp [hne]
            have hlt : s.printedLen < (env.text (cache.take (cache.length - DELAY_N_TOKENS + 1))).length := by
              omega
            rw [Int.toNat_natCast]
            exact (hflush (List.take_prefix _ _) hb hqne hlt).mono
              (hread (List.take_prefix _ _) hb hqne fun hflag => absurd hflag hdelayed)

theorem writeToken_eq (henv : env.outputParser = none) (token : Int) (immediateFlush : Bool) :
    s.writeToken env token immediateFlush = s.decodeToken env token immediateFlush := by
  unfold Streamer.writeToken Streamer.handle_decoding_params_change
  rw [henv]

/-- The tokens that have been written. -/
def Wrote (env : Environment σ) (tokens : List Int) (s : Streamer σ) : Prop :=
  ∃ before, Written env before [] s ∧ before ++ s.tokensCache = tokens

theorem write_yields (henv : env.outputParser = none) (hd : PrefixStable env.text) {tokens : List Int}
    (h : Wrote env tokens s) (hbounded : Bounded s) (token : Int) :
    Yields (Wrote env (tokens ++ [token])) (s.write env token) := by
  obtain ⟨before, hwritten, htokens⟩ := h
  have hwrite : s.write env token = s.decodeToken env token false := by
    unfold Streamer.write
    rw [hwritten.running.completion]
    exact writeToken_eq henv token false
  rw [hwrite]
  refine (decodeToken_yields henv hd (hwritten.receive token) hbounded false (by simp)).mono ?_
  rintro t ⟨⟨before', hwritten', htokens'⟩, _⟩
  exact ⟨before', hwritten', by rw [htokens', htokens]⟩

theorem writeAll_yields (henv : env.outputParser = none) (hd : PrefixStable env.text) {tokens : List Int}
    (h : Wrote env tokens s) (hbounded : Bounded s) (more : List Int) :
    Yields (Wrote env (tokens ++ more)) (s.writeAll env more) := by
  induction more generalizing s tokens with
  | nil =>
    rw [List.append_nil]
    exact ⟨hbounded, Or.inl ⟨rfl, h⟩⟩
  | cons token more ih =>
    apply (write_yields henv hd h hbounded token).andThen
    intro t htbounded ht
    have hmore := ih ht htbounded
    rw [List.append_assoc] at hmore
    exact hmore

/-- The loop of the final drain gives out all that is settled. -/
theorem drainTokens_yields (henv : env.outputParser = none) (hd : PrefixStable env.text)
    {before rest tokens : List Int} (h : Written env before rest s) (hbounded : Bounded s)
    (hcovered : Covered env s) (htokens : before ++ s.tokensCache ++ rest = tokens) :
    Yields (fun t => Wrote env tokens t ∧ Covered env t) (s.drainTokens env rest) := by
  induction rest generalizing s before with
  | nil =>
    rw [List.append_nil] at htokens
    exact ⟨hbounded, Or.inl ⟨rfl, ⟨before, h, htokens⟩, hcovered⟩⟩
  | cons token rest ih =>
    have hread := decodeToken_yields henv hd h hbounded true fun _ => hcovered
    unfold Streamer.drainTokens
    rw [writeToken_eq henv]
    obtain ⟨hbounded', ⟨hrunning, hread⟩ | ⟨hstatus, hstopped⟩⟩ := hread
    · split
      next t heq =>
        rw [heq] at hread hbounded'
        obtain ⟨⟨before', hwritten, htokens'⟩, hcovered'⟩ := hread
        refine ih hwritten hbounded' (hcovered' rfl) ?_
        rw [htokens', ← htokens]
        simp
      next t heq =>
        rw [heq] at hrunning
        cases hrunning
      next status t hne heq =>
        rw [heq] at hrunning
        exact absurd (Option.some.inj hrunning) hne
    · split
      next t heq =>
        rw [heq] at hstatus hstopped
        exact absurd (Option.some.inj hstatus).symm hstopped.2
      next t heq =>
        rw [heq] at hstatus
        cases hstatus
      next status t hne heq =>
        rw [heq] at hstopped hbounded'
        unfold Streamer.observe
        rw [if_pos hstopped.1]
        exact ⟨hbounded', Or.inr ⟨rfl, hstopped⟩⟩

theorem printed_marks {length : Int} (h : length ∈ s.decodedLengths.take s.printed) :
    0 < length ∧ length.toNat ≤ s.printedLen := by
  have htake : s.decodedLengths.takeWhile (fun length => 0 < length && length.toNat ≤ s.printedLen) =
      s.decodedLengths.take s.printed := List.prefix_iff_eq_take.mp (List.takeWhile_prefix _)
  rw [← htake] at h
  simpa using List.mem_takeWhile_imp h

/-- What the final drain keeps as context has been given out. -/
theorem covered_printed {before : List Int} (h : Written env before [] s) :
    Written env before (s.tokensCache.drop s.printed) { s with
        tokensCache := s.tokensCache.take s.printed
        decodedLengths := s.decodedLengths.take s.printed } ∧
      Covered env { s with
        tokensCache := s.tokensCache.take s.printed
        decodedLengths := s.decodedLengths.take s.printed } := by
  have hmarks : s.decodedLengths.take s.printed = marks env.text (s.tokensCache.take s.printed) := by
    rw [h.lengths, marks_take]
  refine ⟨⟨⟨h.running.completion, h.running.quiet⟩, h.special, h.newline, hmarks, ?_⟩, ?_⟩
  · obtain ⟨p, hp, hrest⟩ := h.printed
    refine ⟨p, ?_, hrest⟩
    rw [List.append_nil] at hp
    show p <+: s.tokensCache.take s.printed ++ s.tokensCache.drop s.printed
    rw [List.take_append_drop]
    exact hp
  · intro q hq _
    have hq' : q <+: s.tokensCache.take s.printed := hq
    by_cases hnil : q = []
    · rw [hnil]
      exact Nat.zero_le _
    · have hpos : 0 < q.length := List.length_pos_iff.mpr hnil
      have htake : q = s.tokensCache.take q.length :=
        List.prefix_iff_eq_take.mp (hq'.trans (List.take_prefix _ _))
      have hlen := hq'.length_le
      rw [List.length_take] at hlen
      have hindex : q.length - 1 < (s.tokensCache.take s.printed).length := by
        rw [List.length_take]
        omega
      have hget := marks_getD env.text _ hindex
      rw [Nat.sub_add_cancel hpos, ← List.prefix_iff_eq_take.mp hq'] at hget
      have hmem : mark env.text q ∈ s.decodedLengths.take s.printed := by
        rw [hmarks, ← hget, List.getD_eq_getElem?_getD,
          List.getElem?_eq_getElem (by rw [length_marks]; exact hindex), Option.getD_some]
        exact List.getElem_mem _
      obtain ⟨hpositive, hle⟩ := printed_marks hmem
      rw [(anchored_of_mark hpositive).2, Int.toNat_natCast] at hle
      rw [settled_eq env.text hnil]
      exact hle

/-- Behind a newline the tokens are held back as if they came first. -/
theorem lastAnchored_behind {d : List Int → Str} (hd : PrefixStable d) {before : List Int}
    (h : before = [] ∨ (d before).getLast? = some (char '\n')) (tokens : List Int) :
    lastAnchored d (before ++ tokens) = before ++ lastAnchored d tokens := by
  have hanchored : Anchored d before := h.imp id complete_of_newline
  have hsame (token : Int) (tokens : List Int) :
      Anchored d (before ++ (tokens ++ [token])) ↔ Anchored d (tokens ++ [token]) := by
    have hfront : settled d before = [] ∨ (settled d before).getLast? = some (char '\n') := by
      by_cases hnil : before = []
      · exact Or.inl (by rw [settled, if_pos hnil])
      · rw [settled_eq d hnil]
        exact Or.inr (h.resolve_left hnil)
    simp only [Anchored, hanchored.append hd, is_incomplete_append hfront]
    simp
  induction tokens using List.reverseRecOn with
  | nil =>
    have hall : before <+: lastAnchored d before := isPrefix_lastAnchored d (List.prefix_refl _) hanchored
    have heq := hall.eq_of_length_le (lastAnchored_isPrefix d before).length_le
    rw [List.append_nil, ← heq]
    exact (List.append_nil _).symm
  | append_singleton tokens token ih =>
    rw [← List.append_assoc, lastAnchored_append, lastAnchored_append, List.append_assoc]
    by_cases hlast : Anchored d (tokens ++ [token])
    · rw [if_pos hlast, if_pos ((hsame token tokens).mpr hlast)]
    · rw [if_neg hlast, if_neg (fun hall => hlast ((hsame token tokens).mp hall)), ih]

theorem drain_terminal_yields (henv : env.outputParser = none) (hd : PrefixStable env.text) {tokens : List Int}
    (h : Wrote env tokens s) (hbounded : Bounded s) (reason : FinishReason) :
    Yields (fun t => t.delivered = settled env.text (lastAnchored env.text tokens))
      (s.drain_terminal env reason) := by
  obtain ⟨before, hwritten, htokens⟩ := h
  obtain ⟨hkept, hcovered⟩ := covered_printed hwritten
  have hall : before ++ s.tokensCache.take s.printed ++ s.tokensCache.drop s.printed = tokens := by
    rw [List.append_assoc, List.take_append_drop, htokens]
  apply (drainTokens_yields henv hd hkept hbounded hcovered hall).andThen
  rintro t htbounded ⟨⟨before', hwritten', htokens'⟩, hcovered'⟩
  obtain ⟨p, hp, ha, hprinted, hdelivered⟩ := hwritten'.printed
  rw [List.append_nil] at hp
  have htext : (if t.tokensCache.isEmpty then [] else t.decoded env) = settled env.text t.tokensCache := by
    by_cases hnil : t.tokensCache = []
    · simp [hnil, settled]
    · rw [settled_eq env.text hnil, Streamer.decoded, hwritten'.special]
      simp [hnil, Environment.text]
  have hlen : t.printedLen ≤ (settled env.text t.tokensCache).length := by
    rw [hprinted]
    exact (settled_isPrefix hd ha hp).length_le
  rw [htext]
  apply (flush_yields henv hwritten'.running htbounded le_rfl hlen reason).andThen
  rintro u hubounded hflushed
  refine ⟨hubounded, Or.inl ⟨rfl, ?_⟩⟩
  show u.delivered = _
  rw [hflushed.delivered, Nat.sub_self, substr, List.take_zero, List.append_nil, hdelivered, ← htokens',
    lastAnchored_behind hd hwritten'.newline,
    Anchored.settled_append hd (hwritten'.newline.imp id complete_of_newline)]
  have hlast := lastAnchored_isPrefix env.text t.tokensCache
  have hcut := hcovered' _ hlast (lastAnchored_anchored env.text _)
  rw [hprinted] at hcut
  rw [(settled_isPrefix hd ha (isPrefix_lastAnchored env.text hp ha)).eq_of_length_le hcut]

end Delivery

section Run

variable {σ : Type} (env : Environment σ)

/-- The tokens that are written by a call. -/
def Op.tokens : Op → List Int
  | .write token => [token]
  | .writeAll tokens => tokens
  | _ => []

def Op.writes : Op → Bool
  | .write _ => true
  | .writeAll _ => true
  | _ => false

theorem run_wrote (henv : env.outputParser = none) (hd : PrefixStable env.text) (parser : σ) {ops : List Op}
    (hops : ∀ op ∈ ops, op.writes = true) :
    Bounded (run env parser ops).streamer ∧ (Wrote env (ops.flatMap Op.tokens) (run env parser ops).streamer ∨
      Stopped (run env parser ops).streamer) := by
  induction ops using List.reverseRecOn with
  | nil =>
    refine ⟨by simp [Bounded, run, fresh], Or.inl ⟨[], ⟨⟨rfl, by simp [Quiet, run, fresh]⟩, ?_, Or.inl rfl, rfl, [],
      List.nil_prefix, Or.inl rfl, rfl, rfl⟩, rfl⟩⟩
    show (fresh env parser).decodeSpecialTokens = _
    unfold fresh
    rw [henv]
  | append_singleton ops op ih =>
    obtain ⟨hbounded, hstate⟩ := ih fun op hm => hops op (List.mem_append_left _ hm)
    have hop := hops op (by simp)
    have htokens : (ops ++ [op]).flatMap Op.tokens = ops.flatMap Op.tokens ++ op.tokens := by simp
    have hstep : (run env parser (ops ++ [op])).streamer = ((run env parser ops).streamer.step env op).2 := by
      rw [run_append]
      rfl
    rw [hstep, htokens]
    rcases hstate with hwrote | hstopped
    · have hyields : Yields (Wrote env (ops.flatMap Op.tokens ++ op.tokens))
          ((run env parser ops).streamer.step env op) := by
        cases op with
        | write token => exact write_yields henv hd hwrote hbounded token
        | writeAll tokens => exact writeAll_yields henv hd hwrote hbounded tokens
        | finish reason => cases hop
        | «end» => cases hop
      exact ⟨hyields.1, hyields.2.imp And.right And.right⟩
    · by_cases hempty : op = .writeAll []
      · rw [hempty]
        exact ⟨hbounded, Or.inr hstopped⟩
      · rw [step_aborted env hstopped.1 hstopped.2 hempty]
        exact ⟨hbounded, Or.inr hstopped⟩

/-- The tokens behind the last one at which the text did not end in U+FFFD add at most one
U+FFFD to it. -/
def HoldsBackOne (d : List Int → Str) (tokens : List Int) : Prop :=
  d tokens = settled d (lastAnchored d tokens) ∨ d tokens = settled d (lastAnchored d tokens) ++ replacement

theorem finish_yields (henv : env.outputParser = none) (hd : PrefixStable env.text) {tokens : List Int}
    {s : Streamer σ} (h : Wrote env tokens s) (hbounded : Bounded s) (reason : FinishReason) :
    Bounded (s.finish env reason).2 ∧ ((s.finish env reason).1 = some .running →
      (s.finish env reason).2.delivered = settled env.text (lastAnchored env.text tokens)) := by
  have hopen : s.completion = .open := h.choose_spec.1.running.completion
  have hdrain := drain_terminal_yields henv hd h hbounded reason
  unfold Streamer.finish
  rw [if_neg (by simp [hopen])]
  split
  · exact ⟨hbounded, by simp⟩
  · rw [if_neg (by simp [hopen])]
    split
    next t heq =>
      rw [heq] at hdrain
      exact ⟨hdrain.1, by simp⟩
    next t heq =>
      rw [heq] at hdrain
      refine ⟨hdrain.1, fun _ => ?_⟩
      rcases hdrain.2 with ⟨_, hdelivered⟩ | ⟨hstatus, hstopped⟩
      · exact hdelivered
      · exact absurd (Option.some.inj hstatus).symm hstopped.2
    next status t _ hrunning heq =>
      rw [heq] at hdrain
      exact ⟨hdrain.1, fun h => absurd h (by simpa using hrunning)⟩

/-- Whatever has been flushed on the way, no slice is cut before what has been printed, and
the text that has been given out is that of all tokens, but for one U+FFFD, exactly when the
tokens that are held back add no more. -/
theorem finish_delivers (henv : env.outputParser = none) (hd : PrefixStable env.text) (parser : σ)
    (ops : List Op) (hops : ∀ op ∈ ops, op.writes = true) (reason : FinishReason) :
    let tokens := ops.flatMap Op.tokens
    let finished := (run env parser ops).streamer.finish env reason
    Bounded finished.2 ∧ (finished.1 = some .running →
      finished.2.delivered = settled env.text (lastAnchored env.text tokens) ∧
      ((finished.2.delivered = env.text tokens ∨ env.text tokens = finished.2.delivered ++ replacement) ↔
        HoldsBackOne env.text tokens)) := by
  intro tokens finished
  obtain ⟨hbounded, hstate⟩ := run_wrote env henv hd parser hops
  rcases hstate with hwrote | hstopped
  · obtain ⟨hbounded', hdelivered⟩ := finish_yields env henv hd hwrote hbounded reason
    refine ⟨hbounded', fun hrunning => ?_⟩
    have heq : finished.2.delivered = settled env.text (lastAnchored env.text tokens) := hdelivered hrunning
    refine ⟨heq, ?_⟩
    rw [heq, HoldsBackOne]
    exact or_congr eq_comm Iff.rfl
  · have hfinish : finished = (some (run env parser ops).streamer.abortStatus, (run env parser ops).streamer) :=
      if_pos hstopped.1
    rw [hfinish]
    exact ⟨hbounded, fun hrunning => absurd (Option.some.inj hrunning) hstopped.2⟩

/-- A token that ends within a character, the one that completes it, and a letter. -/
def spelling (token : Int) : Str :=
  if token = 1 then [32, 0xC3] else if token = 2 then [0xA9] else [120]

/-- Decodes spellings; a character that is not complete at the end becomes U+FFFD. -/
def spelled (tokens : List Int) : Str :=
  if tokens.getLast? = some 1 then tokens.dropLast.flatMap spelling ++ (32 :: replacement)
  else tokens.flatMap spelling

theorem spelling_complete (tokens : List Int) : is_incomplete (tokens.flatMap spelling) = false := by
  rw [is_incomplete, ← Bool.not_eq_true, List.isSuffixOf_iff_suffix]
  intro hsuffix
  have hmem : (0xBD : Byte) ∈ tokens.flatMap spelling := hsuffix.subset (by decide)
  obtain ⟨token, _, htoken⟩ := List.mem_flatMap.mp hmem
  revert htoken
  unfold spelling
  split
  · decide
  · split <;> decide

theorem spelled_last {tokens : List Int} (h : tokens.getLast? = some 1) : is_incomplete (spelled tokens) = true := by
  rw [spelled, if_pos h, is_incomplete, List.isSuffixOf_iff_suffix]
  exact ⟨tokens.dropLast.flatMap spelling ++ [32], by simp⟩

theorem spelled_stable : PrefixStable spelled where
  complete xs ys h := by
    have hxs : xs.getLast? ≠ some 1 := by
      intro hlast
      rw [spelled_last hlast] at h
      cases h
    by_cases hys : ys = []
    · simp [hys, spelled]
    · have hlast : (xs ++ ys).getLast? = ys.getLast? := List.getLast?_append_of_ne_nil _ hys
      have hdrop : (xs ++ ys).dropLast = xs ++ ys.dropLast := List.dropLast_append_of_ne_nil hys
      simp only [spelled, hlast, hdrop, if_neg hxs, List.flatMap_append]
      split <;> simp
  held xs ys h := by
    have hlast : xs.getLast? = some 1 := by
      by_contra hne
      rw [spelled, if_neg hne, spelling_complete] at h
      cases h
    obtain ⟨front, rfl⟩ := List.getLast?_eq_some_iff.mp hlast
    have hspelled : spelled (front ++ [1]) = (front.flatMap spelling ++ [32]) ++ replacement := by
      rw [spelled, if_pos hlast, List.dropLast_concat, List.append_assoc]
      rfl
    have hkept : (spelled (front ++ [1])).take ((spelled (front ++ [1])).length - replacement.length) =
        front.flatMap spelling ++ [32] := by
      rw [hspelled, List.length_append, Nat.add_sub_cancel, List.take_left]
    rw [hkept]
    by_cases hys : ys = []
    · rw [hys, List.append_nil, hspelled]
      exact List.prefix_append _ _
    · have hdrop : (front ++ [1] ++ ys).dropLast = front ++ [1] ++ ys.dropLast :=
        List.dropLast_append_of_ne_nil hys
      rw [spelled, hdrop]
      split
      · exact ⟨0xC3 :: (ys.dropLast.flatMap spelling ++ (32 :: replacement)), by simp [spelling]⟩
      · exact ⟨0xC3 :: ys.flatMap spelling, by simp [spelling]⟩

/-- A streamer without an output parser over these spellings. -/
def spellingEnvironment : Environment Unit where
  decode _ := spelled
  outputParser := none
  toolsAvailable := false
  userWantsSpecial := false
  callback _ _ _ := .running

theorem finish_delivers_spelled :
    let finished := (run spellingEnvironment () [.write 0, .writeAll [1, 2, 0]]).streamer.finish
      spellingEnvironment .stop
    finished.1 = some .running ∧ Bounded finished.2 ∧
      finished.2.delivered = settled spelled (lastAnchored spelled [0, 1, 2, 0]) := by
  have hdelivers := finish_delivers spellingEnvironment rfl spelled_stable ()
    [.write 0, .writeAll [1, 2, 0]] (by decide) .stop
  have hrunning : ((run spellingEnvironment () [.write 0, .writeAll [1, 2, 0]]).streamer.finish
      spellingEnvironment .stop).1 = some .running := by decide
  exact ⟨hrunning, hdelivers.1, (hdelivers.2 hrunning).1⟩

/-- The blank before a character that is never completed is lost. -/
theorem finish_loses_blank :
    let finished := (run spellingEnvironment () [.write 1]).streamer.finish spellingEnvironment .stop
    PrefixStable spelled ∧ finished.1 = some .running ∧
      ¬ (finished.2.delivered = spelled [1] ∨ spelled [1] = finished.2.delivered ++ replacement) :=
  ⟨spelled_stable, by decide, by decide⟩

end Run

end ModelServer.OVMSTextStreamer
