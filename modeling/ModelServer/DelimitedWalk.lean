import ModelServer.Occurrence

/-- One delimiter alone. -/
def Occurrence.Delimiters.single {α : Type*} (m : List α) (h : m ≠ []) : Occurrence.Delimiters α where
  marks := [m]
  nonempty := by
    intro m' hm'
    rwa [List.mem_singleton.mp hm']
  separated := by
    intro a ha b hb k _ hlt
    rw [List.mem_singleton.mp ha, List.mem_singleton.mp hb] at hlt
    omega

/-- A machine that waits for delimiters: in each state the first of them in the text that has not been read decides on
the next state. -/
structure DelimitedWalk (σ α ε : Type*) where
  delimiters : σ → Occurrence.Delimiters α
  /-- What happens at a delimiter, with the text before it. -/
  fire : σ → List α → List α → σ × List ε

namespace DelimitedWalk

open Occurrence

variable {σ α ε : Type*} (w : DelimitedWalk σ α ε)

/-- None of the delimiters of a state is in a text. -/
def Quiet (s : σ) (text : List α) : Prop := ∀ m ∈ (w.delimiters s).marks, ∀ i, ¬ At m text i

/-- The machine reads a text up to where it has to wait for more. -/
inductive Reads : σ → List α → σ → List α → List ε → Prop
  | waits {s text} : w.Quiet s text → Reads s text s text []
  | passes {s text m i t rest out} : Earliest (w.delimiters s) text m i →
      Reads (w.fire s (text.take i) m).1 (text.drop (i + m.length)) t rest out →
      Reads s text t rest ((w.fire s (text.take i) m).2 ++ out)

/-- A text that takes the machine from delimiter to delimiter; each stands after a gap that has none of them. -/
inductive Walks : σ → List (List α × List α) → σ → List ε → Prop
  | stays (s) : Walks s [] s []
  | passes {s gap m legs t out} : m ∈ (w.delimiters s).marks → (∀ b ∈ (w.delimiters s).marks, Clean m b) → w.Quiet s gap →
      Walks (w.fire s gap m).1 legs t out → Walks s ((gap, m) :: legs) t ((w.fire s gap m).2 ++ out)

/-- The text of the legs of a walk. -/
def legsText (legs : List (List α × List α)) : List α := legs.flatMap fun leg => leg.1 ++ leg.2

@[simp] theorem legsText_nil : legsText ([] : List (List α × List α)) = [] := rfl

@[simp] theorem legsText_cons (leg : List α × List α) (legs : List (List α × List α)) :
    legsText (leg :: legs) = leg.1 ++ (leg.2 ++ legsText legs) := by
  rw [legsText, List.flatMap_cons, List.append_assoc]
  rfl

@[simp] theorem legsText_append (legs legs' : List (List α × List α)) :
    legsText (legs ++ legs') = legsText legs ++ legsText legs' := List.flatMap_append

variable {w}

theorem Quiet.of_append {s : σ} {text x : List α} (h : w.Quiet s (text ++ x)) : w.Quiet s text :=
  fun m hm i hat => h m hm i (hat.append x)

theorem Reads.unique {s t t' : σ} {text rest rest' : List α} {out out' : List ε} (h : w.Reads s text t rest out)
    (h' : w.Reads s text t' rest' out') : t = t' ∧ rest = rest' ∧ out = out' := by
  induction h generalizing t' rest' out' with
  | waits hquiet =>
    cases h' with
    | waits => exact ⟨rfl, rfl, rfl⟩
    | passes hfirst => exact absurd hfirst.here (hquiet _ hfirst.mem _)
  | passes hfirst _ ih =>
    cases h' with
    | waits hquiet => exact absurd hfirst.here (hquiet _ hfirst.mem _)
    | passes hfirst' hrest =>
      obtain ⟨rfl, rfl⟩ := hfirst.unique hfirst'
      obtain ⟨rfl, rfl, rfl⟩ := ih hrest
      exact ⟨rfl, rfl, rfl⟩

/-- Each delimiter shortens what is left, so every text is read. -/
theorem exists_reads (w : DelimitedWalk σ α ε) (s : σ) (text : List α) : ∃ t rest out, w.Reads s text t rest out := by
  induction hlength : text.length using Nat.strong_induction_on generalizing s text with
  | _ n ih =>
    rcases earliest_or_none (w.delimiters s) text with ⟨m, i, hfirst⟩ | hquiet
    · have hbound := hfirst.length_le
      have hpos := List.length_pos_iff.mpr ((w.delimiters s).nonempty m hfirst.mem)
      obtain ⟨t, rest, out, hrest⟩ := ih (text.drop (i + m.length)).length (by rw [List.length_drop]; omega)
        (w.fire s (text.take i) m).1 _ rfl
      exact ⟨t, rest, _, .passes hfirst hrest⟩
    · exact ⟨s, text, [], .waits hquiet⟩

/-- What was read of a partial text is read of the whole: the machine takes up where it waits. -/
theorem Reads.append {s t u : σ} {text x rest rest' : List α} {out out' : List ε} (h : w.Reads s text t rest out)
    (h' : w.Reads t (rest ++ x) u rest' out') : w.Reads s (text ++ x) u rest' (out ++ out') := by
  induction h with
  | waits => exact h'
  | passes hfirst _ ih =>
    have hlength := hfirst.length_le
    have hmore := hfirst.append x
    have hrest := ih h'
    rw [← List.drop_append_of_le_length hlength] at hrest
    rw [← List.take_append_of_le_length (Nat.le_of_add_right_le hlength)] at hrest ⊢
    rw [List.append_assoc]
    exact .passes hmore hrest

/-- A delimiter after a gap without delimiters is the next one to be read. -/
theorem Reads.leg {s t : σ} {gap m text rest : List α} {out : List ε} (hm : m ∈ (w.delimiters s).marks)
    (hclean : ∀ b ∈ (w.delimiters s).marks, Clean m b) (hquiet : w.Quiet s gap) (h : w.Reads (w.fire s gap m).1 text t rest out) :
    w.Reads s (gap ++ (m ++ text)) t rest ((w.fire s gap m).2 ++ out) := by
  have hfirst : Earliest (w.delimiters s) (gap ++ (m ++ text)) m gap.length := earliest_after hm hclean hquiet
  have hpass : w.Reads s (gap ++ (m ++ text)) t rest ((w.fire s ((gap ++ (m ++ text)).take gap.length) m).2 ++ out) := by
    refine .passes hfirst ?_
    rwa [List.take_left, ← List.length_append, ← List.append_assoc, List.drop_left]
  rwa [List.take_left] at hpass

theorem Walks.leg {s t u : σ} {gap m : List α} {legs : List (List α × List α)} {o out : List ε}
    (hm : m ∈ (w.delimiters s).marks) (hclean : ∀ b ∈ (w.delimiters s).marks, Clean m b)
    (hquiet : ∀ b ∈ (w.delimiters s).marks, ¬ b <:+: gap) (hfire : w.fire s gap m = (t, o)) (h : w.Walks t legs u out) :
    w.Walks s ((gap, m) :: legs) u (o ++ out) := by
  have hrest : w.Walks (w.fire s gap m).1 legs u out := by
    rw [hfire]
    exact h
  have hpass := Walks.passes hm hclean (fun b hb i hat => hquiet b hb (infix_iff_at.mpr ⟨i, hat⟩)) hrest
  rwa [hfire] at hpass

theorem Walks.after {s t u : σ} {gap m : List α} {legs : List (List α × List α)} {o out : List ε} (hfire : w.fire s gap m = (t, o))
    (h : w.Walks s ((gap, m) :: legs) u out) : ∃ later, out = o ++ later ∧ w.Walks t legs u later := by
  cases h with
  | passes _ _ _ hrest =>
    rw [hfire] at hrest ⊢
    exact ⟨_, rfl, hrest⟩

/-- What the state knows as long as nothing is put out. -/
theorem Walks.keeps {I : σ → Prop} {s t : σ} {legs : List (List α × List α)} {out : List ε} (h : w.Walks s legs t out)
    (hstep : ∀ s gap m, I s → (gap, m) ∈ legs → m ∈ (w.delimiters s).marks → I (w.fire s gap m).1 ∧ (w.fire s gap m).2 = [])
    (hs : I s) : I t ∧ out = [] := by
  induction h with
  | stays => exact ⟨hs, rfl⟩
  | passes hm _ _ _ ih =>
    obtain ⟨hnext, hnone⟩ := hstep _ _ _ hs List.mem_cons_self hm
    obtain ⟨ht, hout⟩ := ih (fun s gap m hi hmem => hstep s gap m hi (List.mem_cons_of_mem _ hmem)) hnext
    exact ⟨ht, by rw [hnone, hout]; rfl⟩

theorem Walks.append {s t u : σ} {legs legs' : List (List α × List α)} {out out' : List ε} (h : w.Walks s legs t out)
    (h' : w.Walks t legs' u out') : w.Walks s (legs ++ legs') u (out ++ out') := by
  induction h with
  | stays => exact h'
  | passes hm hclean hquiet _ ih =>
    rw [List.cons_append, List.append_assoc]
    exact .passes hm hclean hquiet (ih h')

/-- A delimiter that is not complete is not found, and neither is another one inside of it. -/
theorem quiet_of_incomplete {s : σ} {gap m text x : List α} (hm : m ∈ (w.delimiters s).marks)
    (hclean : ∀ b ∈ (w.delimiters s).marks, Clean m b) (hquiet : w.Quiet s gap) (htext : text ++ x = gap ++ m)
    (hshort : text.length < gap.length + m.length) : w.Quiet s text := by
  intro b hb i hat
  have hbound := hat.length_le ((w.delimiters s).nonempty b hb)
  have hall : At b (gap ++ (m ++ [])) i := by
    rw [List.append_nil, ← htext]
    exact hat.append x
  rcases Nat.lt_or_ge i gap.length with hlt | hge
  · exact hquiet b hb i ((hclean b hb).straddle hall hlt)
  · obtain ⟨k, rfl⟩ := Nat.exists_eq_add_of_le hge
    rw [List.append_nil] at hall
    have hinside : b <+: m.drop k := at_append_left.mp hall
    exact (w.delimiters s).separated b hb m hm k (by omega) (by omega) hinside

/-- Of a walk, a part of its text is read up to the last delimiter that is complete. -/
theorem Walks.reads_part {s t : σ} {legs : List (List α × List α)} {out : List ε} {tail text x : List α}
    (h : w.Walks s legs t out) (htail : w.Quiet t tail) (htext : text ++ x = legsText legs ++ tail) :
    ∃ read unread u rest out', legs = read ++ unread ∧ w.Walks s read u out' ∧ w.Reads s text u rest out' ∧
      text = legsText read ++ rest ∧ ∀ leg ∈ unread.head?, rest.length < leg.1.length + leg.2.length := by
  induction h generalizing text with
  | stays s =>
    rw [legsText_nil, List.nil_append] at htext
    exact ⟨[], [], s, text, [], rfl, .stays s, .waits (Quiet.of_append (htext ▸ htail)), rfl, fun _ h => by cases h⟩
  | passes hm hclean hquiet hwalk ih =>
    rename_i s gap m legs t out
    rw [legsText_cons, List.append_assoc, List.append_assoc] at htext
    have hgiven : text <+: gap ++ (m ++ (legsText legs ++ tail)) := ⟨x, htext⟩
    have hleg : gap ++ m <+: gap ++ (m ++ (legsText legs ++ tail)) := ⟨legsText legs ++ tail, List.append_assoc ..⟩
    rcases Nat.lt_or_ge text.length (gap.length + m.length) with hlt | hge
    · obtain ⟨x', hx⟩ := List.prefix_of_prefix_length_le hgiven hleg (by rw [List.length_append]; omega)
      refine ⟨[], (gap, m) :: legs, s, text, [], rfl, .stays s, .waits (quiet_of_incomplete hm hclean hquiet hx hlt), rfl, ?_⟩
      intro leg hleg
      cases Option.some.inj hleg
      exact hlt
    · obtain ⟨text', rfl⟩ := List.prefix_of_prefix_length_le hleg hgiven (by rw [List.length_append]; omega)
      rw [List.append_assoc, List.append_assoc] at htext
      have htext' := List.append_cancel_left (List.append_cancel_left htext)
      obtain ⟨read, unread, u, rest, out', rfl, hread, hreads, rfl, hstrict⟩ := ih htail htext'
      refine ⟨(gap, m) :: read, unread, u, rest, _, rfl, .passes hm hclean hquiet hread, ?_, ?_, hstrict⟩
      · rw [List.append_assoc]
        exact .leg hm hclean hquiet hreads
      · rw [legsText_cons, List.append_assoc, List.append_assoc, List.append_assoc]

/-- The whole text of a walk is read. -/
theorem Walks.reads_whole {s t : σ} {legs : List (List α × List α)} {out : List ε} {tail : List α} (h : w.Walks s legs t out)
    (htail : w.Quiet t tail) : w.Reads s (legsText legs ++ tail) t tail out := by
  induction h with
  | stays => exact .waits htail
  | passes hm hclean hquiet _ ih =>
    rw [legsText_cons, List.append_assoc, List.append_assoc]
    exact .leg hm hclean hquiet (ih htail)

theorem Walks.unique {s t t' : σ} {legs : List (List α × List α)} {out out' : List ε} (h : w.Walks s legs t out)
    (h' : w.Walks s legs t' out') : t = t' ∧ out = out' := by
  induction h generalizing t' out' with
  | stays =>
    cases h'
    exact ⟨rfl, rfl⟩
  | passes _ _ _ _ ih =>
    cases h' with
    | passes _ _ _ hrest =>
      obtain ⟨rfl, rfl⟩ := ih hrest
      exact ⟨rfl, rfl⟩

theorem Walks.split {s t : σ} {legs legs' : List (List α × List α)} {out : List ε} (h : w.Walks s (legs ++ legs') t out) :
    ∃ u o o', w.Walks s legs u o ∧ w.Walks u legs' t o' ∧ out = o ++ o' := by
  induction legs generalizing s out with
  | nil => exact ⟨s, [], out, .stays s, h, rfl⟩
  | cons leg legs ih =>
    cases h with
    | passes hm hclean hquiet hrest =>
      obtain ⟨u, o, o', hfirst, hlast, rfl⟩ := ih hrest
      exact ⟨u, _, o', .passes hm hclean hquiet hfirst, hlast, (List.append_assoc ..).symm⟩

/-- As many legs are read as the text is long enough for. -/
theorem le_read_iff {read unread : List (List α × List α)} {text rest : List α} (htext : text = legsText read ++ rest)
    (hstrict : ∀ leg ∈ unread.head?, rest.length < leg.1.length + leg.2.length) {k : Nat} (hk : k ≤ (read ++ unread).length) :
    k ≤ read.length ↔ (legsText ((read ++ unread).take k)).length ≤ text.length := by
  rw [htext, List.length_append]
  constructor
  · intro hle
    rw [List.take_append_of_le_length hle]
    have hsplit := congrArg List.length (congrArg legsText (List.take_append_drop k read))
    rw [legsText_append, List.length_append] at hsplit
    omega
  · intro hle
    by_contra hgt
    obtain ⟨i, rfl⟩ := Nat.exists_eq_add_of_lt (Nat.lt_of_not_le hgt)
    cases unread with
    | nil =>
      rw [List.append_nil] at hk
      omega
    | cons leg unread =>
      have hlt := hstrict leg rfl
      rw [show read.length + i + 1 = read.length + (i + 1) by omega, List.take_length_add_append, List.take_succ_cons, legsText_append,
        legsText_cons, List.length_append, List.length_append, List.length_append] at hle
      omega

section Items

variable {ι : Type*} (legs : ι → List (List α × List α))

/-- Where a list of items ends that has been read in part: after some items, within the next one. -/
structure Within (items : List ι) (j : Nat) (part : List (List α × List α)) (length : Nat) : Prop where
  starts : (legsText ((items.take j).flatMap legs)).length ≤ length
  goes_on : j = items.length ∧ part = [] ∨ ∃ h : j < items.length, length < (legsText ((items.take (j + 1)).flatMap legs)).length ∧
    (∃ missing, missing ≠ [] ∧ legs items[j] = part ++ missing) ∧ ∀ k ≤ (legs items[j]).length,
      (k ≤ part.length ↔ (legsText ((items.take j).flatMap legs ++ (legs items[j]).take k)).length ≤ length)

theorem prefix_flatMap {items : List ι} {read unread : List (List α × List α)} (h : items.flatMap legs = read ++ unread) :
    ∃ j part, read = (items.take j).flatMap legs ++ part ∧ (j = items.length ∧ part = [] ∨
      ∃ h : j < items.length, ∃ missing, missing ≠ [] ∧ legs items[j] = part ++ missing) := by
  induction items generalizing read with
  | nil =>
    obtain ⟨rfl, rfl⟩ := List.append_eq_nil_iff.mp h.symm
    exact ⟨0, [], rfl, .inl ⟨rfl, rfl⟩⟩
  | cons item items ih =>
    rw [List.flatMap_cons] at h
    have hlater : ∀ read', items.flatMap legs = read' ++ unread → read = legs item ++ read' → ∃ j part,
        read = ((item :: items).take j).flatMap legs ++ part ∧ (j = (item :: items).length ∧ part = [] ∨
          ∃ h : j < (item :: items).length, ∃ missing, missing ≠ [] ∧ legs (item :: items)[j] = part ++ missing) := by
      intro read' hrest hread
      obtain ⟨j, part, rfl, hj⟩ := ih hrest
      refine ⟨j + 1, part, ?_, ?_⟩
      · rw [hread, List.take_succ_cons, List.flatMap_cons, List.append_assoc]
      · obtain ⟨rfl, rfl⟩ | ⟨hlt, missing, hne, hpart⟩ := hj
        · exact .inl ⟨rfl, rfl⟩
        · exact .inr ⟨Nat.succ_lt_succ hlt, missing, hne, hpart⟩
    obtain ⟨read', hread, hrest⟩ | ⟨missing, hmissing, hunread⟩ := List.append_eq_append_iff.mp h
    · exact hlater read' hrest hread
    · by_cases hne : missing = []
      · rw [hne] at hmissing hunread
        exact hlater [] hunread.symm (by rw [hmissing, List.append_nil, List.append_nil])
      · exact ⟨0, read, rfl, .inr ⟨Nat.succ_pos _, missing, hne, hmissing⟩⟩

variable {legs}

theorem Walks.reads_items {items : List ι} {s t : σ} {out : List ε} {tail text x : List α}
    (h : w.Walks s (items.flatMap legs) t out) (htail : w.Quiet t tail)
    (htext : text ++ x = legsText (items.flatMap legs) ++ tail) :
    ∃ j part u rest out', Within legs items j part text.length ∧ w.Walks s ((items.take j).flatMap legs ++ part) u out' ∧
      w.Reads s text u rest out' := by
  obtain ⟨read, unread, u, rest, out', hall, hwalk, hreads, hread, hstrict⟩ := h.reads_part htail htext
  obtain ⟨j, part, rfl, hj⟩ := prefix_flatMap legs hall
  refine ⟨j, part, u, rest, out', ⟨?_, ?_⟩, hwalk, hreads⟩
  · rw [hread, legsText_append, List.length_append, List.length_append]
    omega
  · obtain hend | ⟨hlt, missing, hne, hpart⟩ := hj
    · exact .inl hend
    · have hsplit : items.flatMap legs =
          (items.take j).flatMap legs ++ (legs items[j] ++ (items.drop (j + 1)).flatMap legs) := by
        rw [← List.flatMap_cons, ← List.flatMap_append, ← List.drop_eq_getElem_cons, List.take_append_drop]
      have hpart_iff : ∀ k ≤ (legs items[j]).length,
          (k ≤ part.length ↔ (legsText ((items.take j).flatMap legs ++ (legs items[j]).take k)).length ≤ text.length) := by
        intro k hk
        have hiff := le_read_iff hread hstrict (k := ((items.take j).flatMap legs).length + k) (by
          rw [← hall, hsplit, List.length_append, List.length_append]
          omega)
        rw [List.length_append, ← hall, hsplit, List.take_length_add_append, List.take_append_of_le_length hk] at hiff
        rw [← hiff]
        omega
      refine .inr ⟨hlt, ?_, ⟨missing, hne, hpart⟩, hpart_iff⟩
      have hwhole := hpart_iff (legs items[j]).length (Nat.le_refl _)
      rw [List.take_length] at hwhole
      rw [List.take_succ_eq_append_getElem hlt, List.flatMap_append, List.flatMap_singleton]
      have hmissing := List.length_pos_iff.mpr hne
      have hlength := congrArg List.length hpart
      rw [List.length_append] at hlength
      omega

end Items

end DelimitedWalk
