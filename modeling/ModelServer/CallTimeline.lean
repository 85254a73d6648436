import ModelServer.CallDeltas

namespace ModelServer

/-- Where the calls of a text begin and are named: call `i` begins at `start i`, its name is complete at `head i`, and it
ends where the next one begins. -/
structure CallTimeline where
  /-- The names and the arguments. -/
  calls : List (Str × Str)
  start : Nat → Nat
  head : Nat → Nat
  first : start 0 = 0
  ordered : ∀ i < calls.length, start i < start (i + 1)

namespace CallTimeline

variable (timeline : CallTimeline)

/-- How far a reader of the text is: the calls it has completed, and the name of the open one. -/
structure Reader where
  done : Nat → Nat
  current : Nat → Str
  bounded : ∀ m, done m ≤ timeline.calls.length
  started : ∀ m, timeline.start (done m) ≤ m
  ends_later : ∀ m, done m < timeline.calls.length → m < timeline.start (done m + 1)
  named : ∀ m (h : done m < timeline.calls.length), timeline.head (done m) ≤ m → current m = timeline.calls[done m].1
  unnamed : ∀ m, (done m < timeline.calls.length → m < timeline.head (done m)) → current m = []

/-- Call `i` is named by a chunk that does not complete the call before it and ends within the call. -/
def NamedBefore (chunks : List Str) (i : Nat) : Prop :=
  ∃ earlier chunk later, chunks = earlier ++ chunk :: later ∧ timeline.start i ≤ earlier.flatten.length ∧
    timeline.head i ≤ (earlier ++ [chunk]).flatten.length ∧ (earlier ++ [chunk]).flatten.length < timeline.start (i + 1) ∧
    (timeline.calls[i]?.map Prod.fst).getD [] ≠ []

/-- No chunk completes more than one call. -/
def OneAtATime (chunks : List Str) : Prop :=
  ∀ earlier chunk later, chunks = earlier ++ chunk :: later → ∀ i, i + 2 ≤ timeline.calls.length →
    earlier.flatten.length < timeline.start (i + 1) → (earlier ++ [chunk]).flatten.length < timeline.start (i + 2)

variable {timeline}

theorem start_mono {i j : Nat} (hij : i ≤ j) (hj : j ≤ timeline.calls.length) : timeline.start i ≤ timeline.start j := by
  induction j with
  | zero => rw [Nat.le_zero.mp hij]
  | succ j ih =>
    rcases Nat.lt_or_ge j i with hlt | hle
    · rw [show i = j + 1 by omega]
    · exact Nat.le_trans (ih hle (by omega)) (Nat.le_of_lt (timeline.ordered j (by omega)))

namespace Reader

variable (reader : timeline.Reader)

theorem done_eq_iff {m i : Nat} (hi : i < timeline.calls.length) :
    reader.done m = i ↔ timeline.start i ≤ m ∧ m < timeline.start (i + 1) := by
  have hstarted := reader.started m
  constructor
  · rintro rfl
    exact ⟨hstarted, reader.ends_later m hi⟩
  · intro ⟨hstart, hend⟩
    rcases Nat.lt_trichotomy (reader.done m) i with hlt | heq | hgt
    · have hlater := reader.ends_later m (by omega)
      have hmono : timeline.start (reader.done m + 1) ≤ timeline.start i := start_mono (by omega) (by omega)
      omega
    · exact heq
    · have hmono : timeline.start (i + 1) ≤ timeline.start (reader.done m) := start_mono (by omega) (reader.bounded m)
      omega

theorem done_mono {a b : Nat} (h : a ≤ b) : reader.done a ≤ reader.done b := by
  by_contra hgt
  have hlater := reader.ends_later b (Nat.lt_of_lt_of_le (Nat.lt_of_not_le hgt) (reader.bounded a))
  have hstarted := reader.started a
  have hmono : timeline.start (reader.done b + 1) ≤ timeline.start (reader.done a) := start_mono (by omega) (reader.bounded a)
  omega

/-- What a chunk does that takes the reader from one position to another. -/
def event (a b : Nat) : SentDeltas.ChunkEvent :=
  match timeline.calls[reader.done a]? with
  | some call =>
    if reader.done a < reader.done b then .completed call
    else if reader.current b ≠ [] then .named call.1 else .silent
  | none => .silent

/-- The events of chunks from a position on. -/
def events (a : Nat) : List (Str × Str) → List (Str × SentDeltas.ChunkEvent)
  | [] => []
  | (id, chunk) :: chunks => (id, reader.event a (a + chunk.length)) :: events (a + chunk.length) chunks

/-- Some chunk from a position on completes no call, begins within call `i` and ends where the call is named. -/
def Names (i : Nat) (a : Nat) : List Str → Prop
  | [] => False
  | chunk :: chunks =>
    (reader.done a = i ∧ reader.done (a + chunk.length) = i ∧ reader.current (a + chunk.length) ≠ []) ∨
      Names i (a + chunk.length) chunks

/-- No chunk from a position on completes more than one call. -/
def Steps (a : Nat) : List Str → Prop
  | [] => True
  | chunk :: chunks => reader.done (a + chunk.length) ≤ reader.done a + 1 ∧ Steps (a + chunk.length) chunks

variable {reader}

theorem Names.le {i a : Nat} {chunks : List Str} (h : reader.Names i a chunks) : reader.done a ≤ i := by
  induction chunks generalizing a with
  | nil => exact h.elim
  | cons chunk chunks ih =>
    cases h with
    | inl here => exact Nat.le_of_eq here.1
    | inr later => exact Nat.le_trans (reader.done_mono (Nat.le_add_right _ _)) (ih later)

theorem names_iff {i a : Nat} {chunks : List Str} :
    reader.Names i a chunks ↔ ∃ earlier chunk later, chunks = earlier ++ chunk :: later ∧
      reader.done (a + earlier.flatten.length) = i ∧ reader.done (a + (earlier ++ [chunk]).flatten.length) = i ∧
      reader.current (a + (earlier ++ [chunk]).flatten.length) ≠ [] := by
  induction chunks generalizing a with
  | nil => exact ⟨False.elim, fun ⟨earlier, chunk, later, h, _⟩ => by cases earlier <;> cases h⟩
  | cons chunk chunks ih =>
    constructor
    · rintro (here | hnames)
      · exact ⟨[], chunk, chunks, rfl, by simpa using here⟩
      · obtain ⟨earlier, chunk', later, rfl, hsplit⟩ := ih.mp hnames
        refine ⟨chunk :: earlier, chunk', later, rfl, ?_⟩
        simpa [Nat.add_assoc] using hsplit
    · intro ⟨earlier, chunk', later, hchunks, hsplit⟩
      cases earlier with
      | nil =>
        cases hchunks
        exact .inl (by simpa using hsplit)
      | cons first earlier =>
        cases hchunks
        exact .inr (ih.mpr ⟨earlier, chunk', later, rfl, by simpa [Nat.add_assoc] using hsplit⟩)

theorem event_completed {a b : Nat} (h : reader.done a < reader.done b) :
    ∃ hdone : reader.done a < timeline.calls.length, reader.event a b = .completed timeline.calls[reader.done a] := by
  have hdone := Nat.lt_of_lt_of_le h (reader.bounded b)
  refine ⟨hdone, ?_⟩
  rw [event, List.getElem?_eq_getElem hdone]
  exact if_pos h

theorem event_named {a b : Nat} (h : reader.done b = reader.done a) (hname : reader.current b ≠ []) :
    ∃ hdone : reader.done a < timeline.calls.length, reader.event a b = .named timeline.calls[reader.done a].1 := by
  have hdone : reader.done a < timeline.calls.length := by
    by_contra hover
    exact hname (reader.unnamed b fun hlt => absurd (h ▸ hlt) hover)
  refine ⟨hdone, ?_⟩
  rw [event, List.getElem?_eq_getElem hdone]
  dsimp only
  rw [if_neg (by omega), if_pos hname]

theorem event_current {a b : Nat} (h : reader.done b = reader.done a) (hname : reader.current b ≠ []) :
    reader.event a b = .named (reader.current b) := by
  obtain ⟨hdone, hevent⟩ := event_named h hname
  have hhead : timeline.head (reader.done b) ≤ b := by
    by_contra hlt
    exact hname (reader.unnamed b fun _ => Nat.lt_of_not_le hlt)
  rw [hevent, reader.named b (h ▸ hdone) hhead]
  simp only [h]

theorem event_silent {a b : Nat} (h : reader.done b = reader.done a) (hname : reader.current b = []) : reader.event a b = .silent := by
  rw [event]
  split
  next => rw [if_neg (by omega), if_neg (by simp [hname])]
  next => rfl

theorem events_course {a : Nat} {chunks : List (Str × Str)} (hsteps : reader.Steps a (chunks.map Prod.snd))
    (hend : reader.done (a + (chunks.map Prod.snd).flatten.length) = timeline.calls.length) :
    SentDeltas.Course (timeline.calls.drop (reader.done a)) (reader.events a chunks) := by
  induction chunks generalizing a with
  | nil =>
    rw [List.map_nil, List.flatten_nil, List.length_nil, Nat.add_zero] at hend
    rw [hend, List.drop_length]
    exact .ended
  | cons chunk chunks ih =>
    obtain ⟨id, chunk⟩ := chunk
    obtain ⟨hstep, hsteps⟩ := hsteps
    rw [List.map_cons, List.flatten_cons, List.length_append, ← Nat.add_assoc] at hend
    have hrest := ih hsteps hend
    have hmono := reader.done_mono (Nat.le_add_right a chunk.length)
    rcases Nat.lt_or_ge (reader.done a) (reader.done (a + chunk.length)) with hlt | hge
    · obtain ⟨hdone, hevent⟩ := event_completed hlt
      rw [show reader.done (a + chunk.length) = reader.done a + 1 from Nat.le_antisymm hstep hlt] at hrest
      rw [events, hevent, List.drop_eq_getElem_cons hdone]
      exact .completed hrest
    · have hsame := Nat.le_antisymm hge hmono
      rw [hsame] at hrest
      by_cases hname : reader.current (a + chunk.length) = []
      · rw [events, event_silent hsame hname]
        exact .silent hrest
      · obtain ⟨hdone, hevent⟩ := event_named hsame hname
        rw [List.drop_eq_getElem_cons hdone] at hrest ⊢
        rw [events, hevent]
        exact .named hrest

/-- The flag of a call: it is open and named, or a later chunk names it. -/
theorem announced_iff {a i : Nat} {chunks : List (Str × Str)} (hsteps : reader.Steps a (chunks.map Prod.snd)) (opened : Bool)
    (hi : i < (SentDeltas.announced opened (reader.events a chunks)).length) :
    (SentDeltas.announced opened (reader.events a chunks))[i]? = some true ↔
      (i = 0 ∧ opened = true) ∨ reader.Names (reader.done a + i) a (chunks.map Prod.snd) := by
  induction chunks generalizing a i opened with
  | nil => exact absurd hi (Nat.not_lt_zero i)
  | cons chunk chunks ih =>
    obtain ⟨id, chunk⟩ := chunk
    obtain ⟨hstep, hsteps⟩ := hsteps
    have hmono := reader.done_mono (Nat.le_add_right a chunk.length)
    show _ ↔ _ ∨ (_ ∨ reader.Names _ (a + chunk.length) _)
    rcases Nat.lt_or_ge (reader.done a) (reader.done (a + chunk.length)) with hlt | hge
    · obtain ⟨_, hevent⟩ := event_completed hlt
      have hnext : reader.done (a + chunk.length) = reader.done a + 1 := Nat.le_antisymm hstep hlt
      simp only [events, hevent, SentDeltas.announced] at hi ⊢
      cases i with
      | zero =>
        have hlater : ¬ reader.Names (reader.done a + 0) (a + chunk.length) (chunks.map Prod.snd) := by
          intro hnames
          have hle := hnames.le
          omega
        have hhere : ¬ (reader.done a = reader.done a + 0 ∧ reader.done (a + chunk.length) = reader.done a + 0 ∧
            reader.current (a + chunk.length) ≠ []) := by
          intro h
          omega
        rw [List.getElem?_cons_zero, Option.some_inj]
        exact ⟨fun h => .inl ⟨rfl, h⟩, fun h => (h.resolve_right (not_or_intro hhere hlater)).2⟩
      | succ i =>
        rw [List.getElem?_cons_succ, ih hsteps false (Nat.lt_of_succ_lt_succ hi), hnext, Nat.add_right_comm, Nat.add_assoc]
        constructor
        · intro h
          exact .inr (.inr (h.resolve_left fun h => absurd h.2 (by decide)))
        · rintro (h | h | h)
          · omega
          · omega
          · exact .inr h
    · have hsame := Nat.le_antisymm hge hmono
      by_cases hname : reader.current (a + chunk.length) = []
      · simp only [events, event_silent hsame hname, SentDeltas.announced] at hi ⊢
        rw [ih hsteps _ hi, hsame]
        constructor
        · exact Or.imp_right .inr
        · exact Or.imp_right fun h => h.resolve_left fun h => h.2.2 hname
      · obtain ⟨_, hevent⟩ := event_named hsame hname
        simp only [events, hevent, SentDeltas.announced] at hi ⊢
        rw [ih hsteps _ hi, hsame]
        constructor
        · rintro (h | h)
          · exact .inr (.inl ⟨by omega, by omega, hname⟩)
          · exact .inr (.inr h)
        · rintro (h | h | h)
          · exact .inl ⟨h.1, rfl⟩
          · exact .inl ⟨by omega, rfl⟩
          · exact .inr h

theorem current_ne_nil_iff {m i : Nat} (hi : i < timeline.calls.length) (hdone : reader.done m = i) :
    reader.current m ≠ [] ↔ timeline.head i ≤ m ∧ (timeline.calls[i]?.map Prod.fst).getD [] ≠ [] := by
  subst hdone
  rw [List.getElem?_eq_getElem hi]
  constructor
  · intro hname
    have hhead : timeline.head (reader.done m) ≤ m := by
      by_contra hlt
      exact hname (reader.unnamed m fun _ => Nat.lt_of_not_le hlt)
    rw [reader.named m hi hhead] at hname
    exact ⟨hhead, hname⟩
  · intro ⟨hhead, hname⟩
    rw [reader.named m hi hhead]
    exact hname

theorem names_iff_namedBefore {chunks : List Str} {i : Nat} (hi : i < timeline.calls.length) :
    reader.Names i 0 chunks ↔ timeline.NamedBefore chunks i := by
  rw [names_iff]
  refine exists_congr fun earlier => exists_congr fun chunk => exists_congr fun later => and_congr_right fun _ => ?_
  rw [Nat.zero_add, Nat.zero_add]
  have hgrows : earlier.flatten.length ≤ (earlier ++ [chunk]).flatten.length := by
    rw [List.flatten_append, List.length_append]
    omega
  constructor
  · intro ⟨hbefore, hafter, hname⟩
    obtain ⟨hhead, hname⟩ := (current_ne_nil_iff hi hafter).mp hname
    exact ⟨((reader.done_eq_iff hi).mp hbefore).1, hhead, ((reader.done_eq_iff hi).mp hafter).2, hname⟩
  · intro ⟨hstart, hhead, hend, hname⟩
    have hafter : reader.done (earlier ++ [chunk]).flatten.length = i := (reader.done_eq_iff hi).mpr ⟨by omega, hend⟩
    exact ⟨(reader.done_eq_iff hi).mpr ⟨hstart, by omega⟩, hafter, (current_ne_nil_iff hi hafter).mpr ⟨hhead, hname⟩⟩

theorem steps_of_oneAtATime {chunks earlier : List Str} (h : timeline.OneAtATime (earlier ++ chunks)) :
    reader.Steps earlier.flatten.length chunks := by
  induction chunks generalizing earlier with
  | nil => trivial
  | cons chunk chunks ih =>
    have hlength : earlier.flatten.length + chunk.length = (earlier ++ [chunk]).flatten.length := by
      rw [List.flatten_append, List.length_append, List.flatten_singleton]
    refine ⟨?_, ?_⟩
    · by_contra hgt
      have hbounded := reader.bounded (earlier.flatten.length + chunk.length)
      have hbefore := reader.ends_later earlier.flatten.length (by omega)
      have hone := h earlier chunk chunks rfl (reader.done earlier.flatten.length) (by omega) hbefore
      have hstarted := reader.started (earlier.flatten.length + chunk.length)
      have hmono : timeline.start (reader.done earlier.flatten.length + 2) ≤
          timeline.start (reader.done (earlier.flatten.length + chunk.length)) := start_mono (by omega) hbounded
      omega
    · rw [hlength]
      exact ih (by rwa [List.append_assoc])

/-- The deltas are the calls if and only if each call is named before the chunk that completes it; a parser that combines
may have the first one unnamed. -/
theorem reassembles_iff (combines : Bool) {chunks : List (Str × Str)} (hone : timeline.OneAtATime (chunks.map Prod.snd))
    (hend : timeline.start timeline.calls.length ≤ (chunks.map Prod.snd).flatten.length) :
    SentDeltas.Reassembles timeline.calls (SentDeltas.reactAll combines {} (reader.events 0 chunks)) ↔
      ∀ i < timeline.calls.length, (combines = true ∧ i = 0) ∨ timeline.NamedBefore (chunks.map Prod.snd) i := by
  have hsteps : reader.Steps 0 (chunks.map Prod.snd) := @steps_of_oneAtATime timeline reader _ [] hone
  have hzero : reader.done 0 = 0 := by
    by_contra hne
    have hbounded := reader.bounded 0
    have hstarted := reader.started 0
    have hmono : timeline.start 1 ≤ timeline.start (reader.done 0) := start_mono (by omega) hbounded
    exact absurd (Nat.lt_of_lt_of_le (timeline.ordered 0 (by omega)) (Nat.le_trans hmono hstarted)) (Nat.not_lt_zero _)
  have hall : reader.done (0 + (chunks.map Prod.snd).flatten.length) = timeline.calls.length := by
    rw [Nat.zero_add]
    by_contra hne
    have hlt := Nat.lt_of_le_of_ne (reader.bounded (chunks.map Prod.snd).flatten.length) hne
    have hlater := reader.ends_later _ hlt
    have hmono : timeline.start (reader.done (chunks.map Prod.snd).flatten.length + 1) ≤ timeline.start timeline.calls.length :=
      start_mono hlt (Nat.le_refl _)
    omega
  have hcourse := reader.events_course hsteps hall
  rw [hzero, List.drop_zero] at hcourse
  rw [hcourse.reassembles_iff]
  refine forall_congr' fun i => forall_congr' fun hi => or_congr_right ?_
  have hflag := reader.announced_iff (i := i) hsteps false (by rwa [hcourse.announced_length])
  rw [hflag, hzero, Nat.zero_add, names_iff_namedBefore hi]
  exact ⟨fun h => h.resolve_left fun h => absurd h.2 (by decide), .inr⟩

end Reader

end CallTimeline

end ModelServer
